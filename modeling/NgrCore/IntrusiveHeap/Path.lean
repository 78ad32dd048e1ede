import Mathlib.Data.Nat.Bitwise
import NgrCore.IntrusiveHeap.Shape

/-!
Owns the paths that the bits of a position describe: below its leading bit, a set
bit goes to the right child and a clear bit to the left one. `__remove_least_leaf`
follows the path of the last position.
-/

namespace NgrCore.IntrusiveHeap

open NgrCore.Library
open NgrCore.Library.BinaryHeap (parent)

theorem pathBitMask_eq {n : Nat} (positive : n ≠ 0) : pathBitMask n = 2 ^ Nat.log2 n / 2 := by
  unfold pathBitMask bitCeil
  rw [if_neg (by omega), Nat.add_sub_cancel, Nat.pow_succ]
  omega

/-- The position in level order, `remaining` rounds before the path ends. -/
def along (k remaining : Nat) : Nat := k / 2 ^ remaining - 1

theorem along_end (k : Nat) : along k 0 = k - 1 := by
  simp [along]

theorem along_start {k : Nat} (positive : k ≠ 0) : along k (Nat.log2 k) = 0 := by
  have low := Nat.log2_self_le positive
  have high : k < 2 ^ Nat.log2 k * 2 := by
    rw [← Nat.pow_succ]
    exact Nat.lt_log2_self
  have one : k / 2 ^ Nat.log2 k = 1 := Nat.div_eq_of_lt_le (by omega) (by omega)
  simp [along, one]

/-- The next position on the path is the child that the bit names. -/
theorem along_succ {k remaining : Nat} (long : 2 ^ (remaining + 1) ≤ k) :
    along k remaining = if 2 ^ remaining &&& k ≠ 0 then 2 * along k (remaining + 1) + 2
      else 2 * along k (remaining + 1) + 1 := by
  have positive : 0 < 2 ^ (remaining + 1) := Nat.two_pow_pos _
  have higher : 1 ≤ k / 2 ^ (remaining + 1) := Nat.div_pos long positive
  have half : k / 2 ^ (remaining + 1) = k / 2 ^ remaining / 2 := by
    rw [Nat.pow_succ, Nat.div_div_eq_div_mul]
  have bit : 2 ^ remaining &&& k = 2 ^ remaining * (k.testBit remaining).toNat :=
    Nat.two_pow_and k remaining
  rw [bit, Nat.testBit_eq_decide_div_mod_eq]
  unfold along
  by_cases odd : k / 2 ^ remaining % 2 = 1
  · simp only [odd, decide_true, Bool.toNat_true, Nat.mul_one, ne_eq,
      Nat.pos_iff_ne_zero.mp (Nat.two_pow_pos remaining), not_false_eq_true, if_true]
    omega
  · simp only [odd, decide_false, Bool.toNat_false, Nat.mul_zero, ne_eq, not_true, if_false]
    omega

theorem along_le (k remaining : Nat) : along k remaining ≤ k - 1 :=
  Nat.sub_le_sub_right (Nat.div_le_self _ _) 1

theorem parent_along {k remaining : Nat} (long : 2 ^ (remaining + 1) ≤ k) :
    parent (along k remaining) = along k (remaining + 1) ∧
      along k (remaining + 1) < along k remaining := by
  have next := along_succ long
  unfold parent
  split at next <;> omega

variable {heap : Heap} {slot : Nat → Option Addr}

theorem cursor_along {k remaining : Nat} {here : Addr} (long : 2 ^ (remaining + 1) ≤ k)
    (atHere : slot (along k (remaining + 1)) = some here) :
    Cursor slot (along k remaining) (childSlot (2 ^ remaining) k here) := by
  rw [along_succ long, childSlot]
  split
  · exact .right atHere
  · exact .left atHere

theorem removeLeastLeaf_spec {k : Nat} (shape : Shape heap slot)
    (occupied : ∀ j, j < k → slot j ≠ none) (fuel : Nat) :
    ∀ {remaining : Nat} {pp : Slot}, remaining < fuel → 2 ^ remaining ≤ k →
      Cursor slot (along k remaining) pp →
      ∃ last, Cursor slot (k - 1) last ∧
        removeLeastLeaf k fuel (2 ^ remaining / 2) pp (slot (along k remaining)) heap =
          .ok (slot (k - 1), heap.store last none) := by
  induction fuel with
  | zero =>
      intro remaining pp enough
      omega
  | succ fuel inductionHypothesis =>
      intro remaining pp enough long cursor
      cases remaining with
      | zero =>
          rw [along_end] at cursor ⊢
          exact ⟨pp, cursor, by simp [removeLeastLeaf]⟩
      | succ remaining =>
          have half : 2 ^ (remaining + 1) / 2 = 2 ^ remaining := by
            rw [Nat.pow_succ, Nat.mul_div_cancel _ (by omega)]
          have below := along_le k (remaining + 1)
          have shorter : 2 ^ remaining ≤ 2 ^ (remaining + 1) :=
            Nat.pow_le_pow_right (by omega) (by omega)
          have positive := Nat.two_pow_pos remaining
          cases atHere : slot (along k (remaining + 1)) with
          | none => exact absurd atHere (occupied _ (by omega))
          | some here =>
              have next := cursor_along long atHere
              rcases inductionHypothesis (by omega) (by omega) next with ⟨last, reached, result⟩
              refine ⟨last, reached, ?_⟩
              rw [removeLeastLeaf, half, if_pos (by omega), ← result, ← shape.load next]
              rfl

theorem leastLeaf_spec (shape : Shape heap slot) (positive : heap.size ≠ 0)
    (occupied : ∀ j, j < heap.size → slot j ≠ none) :
    ∃ last, Cursor slot (heap.size - 1) last ∧
      leastLeaf heap = .ok (slot (heap.size - 1), heap.store last none) := by
  have start := along_start positive
  have cursor : Cursor slot (along heap.size (Nat.log2 heap.size)) .root := by
    rw [start]
    exact .root
  have shorter : Nat.log2 heap.size < heap.size := by
    rw [Nat.log2_lt positive]
    exact Nat.lt_two_pow_self
  rcases removeLeastLeaf_spec shape occupied heap.size shorter
    (Nat.log2_self_le positive) cursor with ⟨last, reached, result⟩
  refine ⟨last, reached, ?_⟩
  rw [leastLeaf, pathBitMask_eq positive, ← result, start, shape.root]

end NgrCore.IntrusiveHeap
