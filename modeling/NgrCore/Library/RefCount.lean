import Mathlib.Data.List.Nodup
import Mathlib.Logic.Function.Basic

/-!
Owns counted references: blocks whose count is the number of references to them, and
one more while some thread owns them; and free lists, which hold blocks that nobody refers
to, each block once.

Both are relations between the counts and whatever else a state has, with one rule for each
thing that a thread can do.
-/

namespace NgrCore.Library

universe u v

variable {Thread : Type u} {Block : Type v}

/-- The count of a block is the number of its references, and one more if a thread owns it. -/
structure Counted (use : Block → Int) (refs : Block → Nat) (owner : Thread → Option Block) :
    Prop where
  owned : ∀ t b, owner t = some b → use b = refs b + 1
  unowned : ∀ b, (∀ t, owner t ≠ some b) → use b = refs b
  sole : ∀ t u b, owner t = some b → owner u = some b → t = u

/-- Every thread has a list of blocks whose count is zero, and no block is listed twice. -/
structure FreeLists (use : Block → Int) (free : Thread → List Block) : Prop where
  unused : ∀ t, ∀ b ∈ free t, use b = 0
  nodup : ∀ t, (free t).Nodup
  apart : ∀ t u b, b ∈ free t → b ∈ free u → t = u

namespace Counted

variable {use use' : Block → Int} {refs refs' : Block → Nat} {owner owner' : Thread → Option Block}
  {t : Thread} {blk : Block}

theorem congr (counted : Counted use refs owner) (same : ∀ t, owner' t = owner t)
    (balance : ∀ b, use' b - refs' b = use b - refs b) : Counted use' refs' owner' := by
  constructor
  · intro t b own
    have before := counted.owned t b ((same t).symm.trans own)
    have kept := balance b
    omega
  · intro b none
    have before := counted.unowned b fun t own => none t ((same t).trans own)
    have kept := balance b
    omega
  · intro t u b first second
    exact counted.sole t u b ((same t).symm.trans first) ((same u).symm.trans second)

/-- A count is never less than the number of references. -/
theorem refs_le (counted : Counted use refs owner) (b : Block) : refs b ≤ use b := by
  by_cases some : ∃ t, owner t = some b
  · obtain ⟨t, own⟩ := some
    have counts := counted.owned t b own
    omega
  · have counts := counted.unowned b fun t own => some ⟨t, own⟩
    omega

variable [DecidableEq Block]

theorem lose (counted : Counted use refs owner) (owned : owner t = some blk)
    (mine : owner' t = none) (others : ∀ u, u ≠ t → owner' u = owner u) :
    Counted (Function.update use blk (use blk + -1)) refs owner' := by
  have before : ∀ u b, owner' u = some b → u ≠ t ∧ owner u = some b := by
    intro u b own
    have apart : u ≠ t := by
      rintro rfl
      cases mine.symm.trans own
    exact ⟨apart, (others u apart).symm.trans own⟩
  constructor
  · intro u b own
    obtain ⟨apart, previous⟩ := before u b own
    have different : b ≠ blk := by
      rintro rfl
      exact apart (counted.sole u t b previous owned)
    rw [Function.update_of_ne different]
    exact counted.owned u b previous
  · intro b none
    by_cases same : b = blk
    · rw [same, Function.update_self, counted.owned t blk owned]
      omega
    · rw [Function.update_of_ne same]
      refine counted.unowned b fun u own => ?_
      have apart : u ≠ t := by
        rintro rfl
        exact same (Option.some.inj (own.symm.trans owned))
      exact none u ((others u apart).trans own)
  · intro u w b first second
    exact counted.sole u w b (before u b first).2 (before w b second).2

/-- A thread without a block becomes the owner of one that nobody uses. -/
theorem gain (counted : Counted use refs owner) (unused : use blk = 0) (empty : owner t = none)
    (mine : owner' t = some blk) (others : ∀ u, u ≠ t → owner' u = owner u) :
    Counted (Function.update use blk (use blk + 1)) refs owner' := by
  have nobody : ∀ u, owner u ≠ some blk := by
    intro u own
    have counts := counted.owned u blk own
    omega
  have before : ∀ u b, owner' u = some b → u ≠ t → owner u = some b :=
    fun u b own apart => (others u apart).symm.trans own
  constructor
  · intro u b own
    by_cases same : b = blk
    · rw [same, Function.update_self, counted.unowned blk nobody]
    · rw [Function.update_of_ne same]
      refine counted.owned u b (before u b own ?_)
      rintro rfl
      exact same (Option.some.inj (own.symm.trans mine))
  · intro b none
    have different : b ≠ blk := by
      rintro rfl
      exact none t mine
    rw [Function.update_of_ne different]
    refine counted.unowned b fun u own => ?_
    have apart : u ≠ t := by
      rintro rfl
      cases empty.symm.trans own
    exact none u ((others u apart).trans own)
  · intro u w b first second
    by_cases here : u = t
    · by_cases there : w = t
      · exact here.trans there.symm
      · rw [here, mine] at first
        cases first
        exact absurd (before w blk second there) (nobody w)
    · by_cases there : w = t
      · rw [there, mine] at second
        cases second
        exact absurd (before u blk first here) (nobody u)
      · exact counted.sole u w b (before u b first here) (before w b second there)

end Counted

namespace FreeLists

variable {use use' : Block → Int} {free free' : Thread → List Block} {t : Thread} {blk : Block}

/-- Lists may lose blocks, and a count that is not zero may change. -/
theorem shrink (lists : FreeLists use free) (fewer : ∀ t, (free' t).Sublist (free t))
    (unused : ∀ b, use b = 0 → use' b = 0) : FreeLists use' free' := by
  constructor
  · exact fun t b member => unused b (lists.unused t b ((fewer t).subset member))
  · exact fun t => (lists.nodup t).sublist (fewer t)
  · intro t u b first second
    exact lists.apart t u b ((fewer t).subset first) ((fewer u).subset second)

/-- Blocks that are in no list are put into the list of a thread. -/
theorem fill (lists : FreeLists use free) {batch : List Block} (once : batch.Nodup)
    (nowhere : ∀ b ∈ batch, ∀ u, b ∉ free u) (unused : ∀ b ∈ batch, use' b = 0)
    (kept : ∀ b, use b = 0 → use' b = 0) (mine : free' t = batch ++ free t)
    (others : ∀ u, u ≠ t → free' u = free u) : FreeLists use' free' := by
  have member : ∀ u b, b ∈ free' u → (u = t ∧ b ∈ batch) ∨ b ∈ free u := by
    intro u b here
    by_cases own : u = t
    · rw [own, mine] at here
      rcases List.mem_append.mp here with fresh | old
      · exact .inl ⟨own, fresh⟩
      · exact .inr (own ▸ old)
    · exact .inr (others u own ▸ here)
  constructor
  · intro u b here
    rcases member u b here with ⟨_, fresh⟩ | old
    · exact unused b fresh
    · exact kept b (lists.unused u b old)
  · intro u
    by_cases own : u = t
    · rw [own, mine]
      exact List.nodup_append.mpr ⟨once, lists.nodup t, fun b fresh c old same =>
        nowhere b fresh t (same ▸ old)⟩
    · rw [others u own]
      exact lists.nodup u
  · intro u w b first second
    rcases member u b first with ⟨rfl, fresh⟩ | old
    · rcases member w b second with ⟨rfl, _⟩ | old
      · rfl
      · exact absurd old (nowhere b fresh w)
    · rcases member w b second with ⟨rfl, fresh⟩ | other
      · exact absurd old (nowhere b fresh u)
      · exact lists.apart u w b old other

variable [DecidableEq Block]

/-- A block whose count drops to zero is put into the list of a thread. -/
theorem put (lists : FreeLists use free) (last : use blk = 1) (mine : free' t = blk :: free t)
    (others : ∀ u, u ≠ t → free' u = free u) :
    FreeLists (Function.update use blk (use blk + -1)) free' := by
  refine lists.fill (List.nodup_singleton blk) ?_ ?_ ?_ mine others
  · intro b member u listed
    rw [List.mem_singleton.mp member] at listed
    have zero := lists.unused u blk listed
    omega
  · intro b member
    rw [List.mem_singleton.mp member, Function.update_self]
    omega
  · intro b zero
    have different : b ≠ blk := by
      rintro rfl
      omega
    rw [Function.update_of_ne different]
    exact zero

/-- The first block of a list is taken out of it, and its count becomes one. -/
theorem take (lists : FreeLists use free) (before : free t = blk :: free' t)
    (others : ∀ u, u ≠ t → free' u = free u) :
    FreeLists (Function.update use blk (use blk + 1)) free' := by
  have fewer : ∀ u, (free' u).Sublist (free u) := by
    intro u
    by_cases own : u = t
    · rw [own, before]
      exact List.sublist_cons_self blk (free' t)
    · rw [others u own]
  have nodup := lists.nodup t
  rw [before] at nodup
  have gone : ∀ u, blk ∉ free' u := by
    intro u listed
    have own : u = t := lists.apart u t blk ((fewer u).subset listed) (by simp [before])
    exact (List.nodup_cons.mp nodup).1 (own ▸ listed)
  constructor
  · intro u b listed
    have different : b ≠ blk := by
      rintro rfl
      exact gone u listed
    rw [Function.update_of_ne different]
    exact lists.unused u b ((fewer u).subset listed)
  · exact fun u => (lists.nodup u).sublist (fewer u)
  · intro u w b first second
    exact lists.apart u w b ((fewer u).subset first) ((fewer w).subset second)

end FreeLists

end NgrCore.Library
