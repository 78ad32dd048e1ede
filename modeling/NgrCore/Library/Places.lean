import Mathlib.Data.List.Nodup

/-!
Owns items that are kept in places, each in one place only, and what moving some of them
from one place to another leaves.
-/

namespace NgrCore.Library

variable {Place Item : Type*}

/-- The items of the pool are in the places: no place holds an item twice, and no two
places hold the same item. -/
structure Placed (pool : Item → Prop) (items : Place → List Item) : Prop where
  nodup : ∀ place, (items place).Nodup
  apart : ∀ first second item, item ∈ items first → item ∈ items second → first = second
  pool : ∀ item, (∃ place, item ∈ items place) ↔ pool item

namespace Placed

variable {pool : Item → Prop} {items after : Place → List Item}

/-- An item of the pool is in exactly one place. -/
theorem existsUnique (placed : Placed pool items) {item : Item} (known : pool item) :
    ∃! place, item ∈ items place := by
  obtain ⟨place, member⟩ := (placed.pool item).mpr known
  exact ⟨place, member, fun other there => placed.apart other place item there member⟩

theorem congr (placed : Placed pool items) (same : ∀ place, (after place).Perm (items place)) :
    Placed pool after where
  nodup place := (same place).nodup_iff.mpr (placed.nodup place)
  apart first second item here there :=
    placed.apart first second item ((same first).subset here) ((same second).subset there)
  pool item := (exists_congr fun place => (same place).mem_iff).trans (placed.pool item)

theorem of_iff {other : Item → Prop} (placed : Placed pool items)
    (same : ∀ item, pool item ↔ other item) : Placed other items where
  nodup := placed.nodup
  apart := placed.apart
  pool item := (placed.pool item).trans (same item)

theorem insert (placed : Placed pool items) (place : Place) {added : List Item}
    (distinct : added.Nodup) (new : ∀ item ∈ added, ¬ pool item)
    (here : after place = added ++ items place)
    (others : ∀ other, other ≠ place → after other = items other) :
    Placed (fun item => pool item ∨ item ∈ added) after := by
  have cases (other : Place) (item : Item) (member : item ∈ after other) :
      (other = place ∧ item ∈ added) ∨ item ∈ items other := by
    by_cases mine : other = place
    · rw [mine, here] at member
      rcases List.mem_append.mp member with fresh | old
      · exact .inl ⟨mine, fresh⟩
      · exact .inr (mine ▸ old)
    · exact .inr (others other mine ▸ member)
  have known (other : Place) (item : Item) (member : item ∈ items other) : pool item :=
    (placed.pool item).mp ⟨other, member⟩
  refine ⟨fun other => ?_, fun first second item one two => ?_, fun item => ?_⟩
  · by_cases mine : other = place
    · rw [mine, here]
      refine List.nodup_append.mpr ⟨distinct, placed.nodup place, ?_⟩
      rintro item fresh _ old rfl
      exact new item fresh (known place item old)
    · rw [others other mine]
      exact placed.nodup other
  · rcases cases first item one with ⟨atFirst, fresh⟩ | old
    · rcases cases second item two with ⟨atSecond, _⟩ | also
      · exact atFirst.trans atSecond.symm
      · exact absurd (known second item also) (new item fresh)
    · rcases cases second item two with ⟨_, fresh⟩ | also
      · exact absurd (known first item old) (new item fresh)
      · exact placed.apart first second item old also
  · constructor
    · rintro ⟨other, member⟩
      exact (cases other item member).symm.imp (known other item) And.right
    · rintro (old | fresh)
      · obtain ⟨other, member⟩ := (placed.pool item).mpr old
        refine ⟨other, ?_⟩
        by_cases mine : other = place
        · rw [mine, here]
          exact List.mem_append_right _ (mine ▸ member)
        · rw [others other mine]
          exact member
      · refine ⟨place, ?_⟩
        rw [here]
        exact List.mem_append_left _ fresh

theorem remove (placed : Placed pool items) {place : Place} {item : Item}
    (here : items place = item :: after place)
    (others : ∀ other, other ≠ place → after other = items other) :
    Placed (fun other => pool other ∧ other ≠ item) after := by
  have fewer (other : Place) : (after other).Sublist (items other) := by
    by_cases mine : other = place
    · rw [mine, here]
      exact List.sublist_cons_self _ _
    · rw [others other mine]
  have atPlace := placed.nodup place
  rw [here] at atPlace
  have gone (other : Place) : item ∉ after other := by
    intro member
    have mine : other = place := by
      refine placed.apart other place item ((fewer other).subset member) ?_
      rw [here]
      exact List.mem_cons_self
    exact (List.nodup_cons.mp atPlace).1 (mine ▸ member)
  refine ⟨fun other => (placed.nodup other).sublist (fewer other),
    fun first second x one two => placed.apart first second x ((fewer first).subset one)
      ((fewer second).subset two), fun x => ?_⟩
  constructor
  · rintro ⟨other, member⟩
    exact ⟨(placed.pool x).mp ⟨other, (fewer other).subset member⟩,
      ne_of_mem_of_not_mem member (gone other)⟩
  · rintro ⟨known, different⟩
    obtain ⟨other, member⟩ := (placed.pool x).mpr known
    refine ⟨other, ?_⟩
    by_cases mine : other = place
    · rw [mine, here] at member
      rw [mine]
      exact (List.mem_cons.mp member).resolve_left different
    · rw [others other mine]
      exact member

theorem self (placed : Placed pool items) :
    Placed (fun item => ∃ place, item ∈ items place) items :=
  placed.of_iff fun item => (placed.pool item).symm

theorem sublist (placed : Placed pool items)
    (fewer : ∀ place, (after place).Sublist (items place)) :
    Placed (fun item => ∃ place, item ∈ after place) after where
  nodup place := (placed.nodup place).sublist (fewer place)
  apart first second item here there :=
    placed.apart first second item ((fewer first).subset here) ((fewer second).subset there)
  pool _ := Iff.rfl

section Transfer

variable (source target : Place) (differ : source ≠ target)
  (others : ∀ place, place ≠ source → place ≠ target → after place = items place)
  (moved : (after source ++ after target).Perm (items source ++ items target))

include others moved in
theorem mem_transfer {item : Item} {place : Place} (member : item ∈ after place) :
    (place ≠ source ∧ place ≠ target ∧ item ∈ items place) ∨
      ((place = source ∨ place = target) ∧ (item ∈ items source ∨ item ∈ items target)) := by
  by_cases mine : place = source ∨ place = target
  · refine .inr ⟨mine, List.mem_append.mp (moved.subset ?_)⟩
    rcases mine with rfl | rfl
    · exact List.mem_append_left _ member
    · exact List.mem_append_right _ member
  · rw [not_or] at mine
    exact .inl ⟨mine.1, mine.2, others place mine.1 mine.2 ▸ member⟩

include others moved in
theorem exists_transfer {item : Item} :
    (∃ place, item ∈ after place) ↔ ∃ place, item ∈ items place := by
  constructor
  · rintro ⟨place, member⟩
    rcases mem_transfer source target others moved member with ⟨_, _, before⟩ | ⟨_, before | before⟩
    · exact ⟨place, before⟩
    · exact ⟨source, before⟩
    · exact ⟨target, before⟩
  · rintro ⟨place, member⟩
    have back (other : Place) (notSource : other ≠ source) (notTarget : other ≠ target) :
        items other = after other := (others other notSource notTarget).symm
    rcases mem_transfer source target back moved.symm member with ⟨_, _, now⟩ | ⟨_, now | now⟩
    · exact ⟨place, now⟩
    · exact ⟨source, now⟩
    · exact ⟨target, now⟩

include differ others moved in
theorem transfer (placed : Placed pool items) : Placed pool after := by
  have before : (items source ++ items target).Nodup := by
    refine List.nodup_append.mpr ⟨placed.nodup source, placed.nodup target, ?_⟩
    rintro item here _ there rfl
    exact differ (placed.apart source target item here there)
  obtain ⟨sourceNodup, targetNodup, disjoint⟩ := List.nodup_append.mp (moved.nodup_iff.mpr before)
  refine ⟨?_, ?_, fun item => (exists_transfer source target others moved).trans (placed.pool item)⟩
  · intro place
    by_cases atSource : place = source
    · exact atSource ▸ sourceNodup
    by_cases atTarget : place = target
    · exact atTarget ▸ targetNodup
    · rw [others place atSource atTarget]
      exact placed.nodup place
  · intro first second item here there
    rcases mem_transfer source target others moved here with ⟨notSource, notTarget, before⟩ |
    ⟨mine, before⟩
    · rcases mem_transfer source target others moved there with ⟨_, _, also⟩ | ⟨_, also | also⟩
      · exact placed.apart first second item before also
      · exact absurd (placed.apart first source item before also) notSource
      · exact absurd (placed.apart first target item before also) notTarget
    · rcases mem_transfer source target others moved there with ⟨notSource, notTarget, also⟩ |
    ⟨alsoMine, _⟩
      · rcases before with before | before
        · exact absurd (placed.apart second source item also before) notSource
        · exact absurd (placed.apart second target item also before) notTarget
      · rcases mine with rfl | rfl <;> rcases alsoMine with rfl | rfl
        · rfl
        · exact absurd rfl (disjoint item here item there)
        · exact absurd rfl (disjoint item there item here)
        · rfl

end Transfer

end Placed

end NgrCore.Library
