import Mathlib.Algebra.Group.Nat.Defs
import Mathlib.Data.Nat.Size
import Mathlib.Logic.Function.Basic

/-!
Owns `__atomic_segment_array`: values registered one after another into segments
of doubling size, and the fold that visits them.

Proves that the fold visits every registered value once, in the order of
registration.
-/

namespace NgrCore

/-- `__atomic_segment_array<_Ty, __max_>`: the segments, of which `__seg_` has
`std::bit_width(__max_)`, and `__count_`. A null segment is `none`. -/
structure SegmentArray (α : Type*) (max : Nat) where
  seg : Nat → Option (Nat → α) := fun _ => none
  count : Nat := 0

namespace SegmentArray

variable {α : Type*} {max : Nat}

/-- `__locate`: the segment of a position and its place inside. -/
def locate (w : Nat) : Nat × Nat :=
  (Nat.log2 (w + 1), w - (2 ^ Nat.log2 (w + 1) - 1))

/-- `_M_segment`: the segment, created with value-initialised elements if it
is still null. -/
def segment [Inhabited α] (array : SegmentArray α max) (n : Nat) : Nat → α :=
  (array.seg n).getD fun _ => default

/-- `_M_push_back`. There are `std::bit_width(__max_)` segments; `none` means a
position beyond the last of them. -/
def pushBack [Inhabited α] (array : SegmentArray α max) (v : α) :
    Option (SegmentArray α max) :=
  if (locate array.count).1 < Nat.size max then
    some {
      seg := Function.update array.seg (locate array.count).1
        (some (Function.update (array.segment (locate array.count).1) (locate array.count).2 v))
      count := array.count + 1 }
  else none

/-- The loop of `_M_fold_inplace` from position `w` at the start of segment
`n`: the elements it passes to the function. Every round visits an element, so
the count bounds the rounds; a null segment yields nothing. -/
def foldLoop (array : SegmentArray α max) : Nat → Nat → Nat → List α
  | 0, _, _ => []
  | fuel + 1, w, n =>
      if w < array.count then
        match array.seg n with
        | some seg =>
            (List.range (min (2 ^ n) (array.count - w))).map seg ++
              foldLoop array fuel (w + min (2 ^ n) (array.count - w)) (n + 1)
        | none => []
      else []

/-- The elements `_M_fold_inplace` visits, in order. -/
def visits (array : SegmentArray α max) : List α := array.foldLoop array.count 0 0

/-- The array holds exactly the values, in order. -/
def Holds (array : SegmentArray α max) (values : List α) : Prop :=
  array.count = values.length ∧ ∀ w (inside : w < values.length),
    ∃ seg, array.seg (locate w).1 = some seg ∧ seg (locate w).2 = values[w]

theorem holds_empty : Holds ({} : SegmentArray α max) [] :=
  ⟨rfl, fun _ inside => absurd inside (Nat.not_lt_zero _)⟩

theorem locate_segment {n m : Nat} (inside : m < 2 ^ n) : locate (2 ^ n - 1 + m) = (n, m) := by
  have positive : 0 < 2 ^ n := Nat.two_pow_pos n
  have position : 2 ^ n - 1 + m + 1 = 2 ^ n + m := by omega
  have log : Nat.log2 (2 ^ n + m) = n := by
    rw [Nat.log2_eq_iff (by omega)]
    refine ⟨Nat.le_add_right _ _, ?_⟩
    rw [Nat.pow_succ]
    omega
  unfold locate
  rw [position, log]
  exact Prod.ext rfl (by omega)

/-- Positions are determined by their places. -/
theorem locate_inj {v w : Nat} (same : locate v = locate w) : v = w := by
  have below : ∀ u, 2 ^ Nat.log2 (u + 1) ≤ u + 1 := fun u => Nat.log2_self_le (by omega)
  have segments : Nat.log2 (v + 1) = Nat.log2 (w + 1) := congrArg Prod.fst same
  have places : v - (2 ^ Nat.log2 (v + 1) - 1) = w - (2 ^ Nat.log2 (w + 1) - 1) :=
    congrArg Prod.snd same
  have first := below v
  have second := below w
  rw [segments] at first places
  omega

theorem Holds.pushBack [Inhabited α] {array next : SegmentArray α max} {values : List α} {v : α}
    (holds : Holds array values) (pushed : array.pushBack v = some next) :
    Holds next (values ++ [v]) := by
  have count := holds.1
  unfold SegmentArray.pushBack at pushed
  split at pushed
  · cases pushed
    refine ⟨by simp [count], ?_⟩
    intro w inside
    rw [List.length_append, List.length_singleton] at inside
    by_cases segment : (locate w).1 = (locate array.count).1
    · refine ⟨_, (congrArg _ segment).trans (Function.update_self _ _ _), ?_⟩
      by_cases last : w = array.count
      · subst last
        simp [count]
      · have before : w < values.length := by omega
        rcases holds.2 w before with ⟨seg, stored, value⟩
        have place : (locate w).2 ≠ (locate array.count).2 := fun place =>
          last (locate_inj (Prod.ext segment place))
        rw [Function.update_of_ne place, SegmentArray.segment, ← segment, stored]
        simpa [List.getElem_append_left before] using value
    · have before : w < values.length := by
        have other : w ≠ array.count := fun same => segment (by rw [same])
        omega
      rcases holds.2 w before with ⟨seg, stored, value⟩
      refine ⟨seg, (Function.update_of_ne segment _ _).trans stored, ?_⟩
      simpa [List.getElem_append_left before] using value
  · cases pushed

theorem foldLoop_end {array : SegmentArray α max} (fuel n : Nat) {w : Nat}
    (done : array.count ≤ w) : array.foldLoop fuel w n = [] := by
  cases fuel with
  | zero => rfl
  | succ fuel => exact if_neg (Nat.not_lt.mpr done)

/-- One round passes the values of one segment to the function. -/
theorem Holds.round {array : SegmentArray α max} {values : List α} (holds : Holds array values)
    {n : Nat} (more : 2 ^ n - 1 < values.length) :
    ∃ seg, array.seg n = some seg ∧
      (List.range (min (2 ^ n) (values.length - (2 ^ n - 1)))).map seg =
        (values.drop (2 ^ n - 1)).take (2 ^ n) := by
  rcases holds.2 _ more with ⟨seg, stored, _⟩
  have first : locate (2 ^ n - 1) = (n, 0) := locate_segment (Nat.two_pow_pos n)
  rw [first] at stored
  refine ⟨seg, stored, List.ext_getElem (by simp) ?_⟩
  intro m inside _
  rw [List.length_map, List.length_range] at inside
  have within : m < 2 ^ n := by omega
  rcases holds.2 (2 ^ n - 1 + m) (by omega) with ⟨other, again, value⟩
  rw [locate_segment within] at again value
  rw [stored] at again
  cases again
  simpa using value

/-- From the start of a segment, the fold visits the values from there on. -/
theorem Holds.foldLoop {array : SegmentArray α max} {values : List α}
    (holds : Holds array values) (fuel n : Nat) (enough : values.length ≤ 2 ^ n - 1 + fuel) :
    array.foldLoop fuel (2 ^ n - 1) n = values.drop (2 ^ n - 1) := by
  induction fuel generalizing n with
  | zero => exact (List.drop_eq_nil_of_le (by omega)).symm
  | succ fuel inductionHypothesis =>
      by_cases more : 2 ^ n - 1 < values.length
      · rcases holds.round more with ⟨seg, stored, round⟩
        have next : array.foldLoop fuel
            (2 ^ n - 1 + min (2 ^ n) (values.length - (2 ^ n - 1))) (n + 1) =
            (values.drop (2 ^ n - 1)).drop (2 ^ n) := by
          have positive : 0 < 2 ^ n := Nat.two_pow_pos n
          have after : 2 ^ n - 1 + 2 ^ n = 2 ^ (n + 1) - 1 := by
            rw [Nat.pow_succ]
            omega
          rw [List.drop_drop, after]
          by_cases full : 2 ^ n ≤ values.length - (2 ^ n - 1)
          · rw [Nat.min_eq_left full, after]
            exact inductionHypothesis (n + 1) (by omega)
          · rw [Nat.min_eq_right (by omega), List.drop_eq_nil_of_le (by omega)]
            exact foldLoop_end _ _ (by rw [holds.1]; omega)
        rw [SegmentArray.foldLoop, holds.1, if_pos more, stored]
        show _ ++ array.foldLoop fuel _ _ = _
        rw [round, next, List.take_append_drop]
      · rw [List.drop_eq_nil_of_le (by omega)]
        exact foldLoop_end _ _ (by rw [holds.1]; omega)

/-- The fold visits what was registered, in the order of registration. -/
theorem Holds.visits {array : SegmentArray α max} {values : List α}
    (holds : Holds array values) : array.visits = values := by
  have all := holds.foldLoop values.length 0 (by omega)
  unfold SegmentArray.visits
  rw [holds.1]
  exact all

end SegmentArray

end NgrCore
