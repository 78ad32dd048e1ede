import Mathlib.Data.Nat.Bitwise

/-!
Owns `__round_up`: sizes and addresses rounded up to a power of two.
-/

namespace NgrCore

/-- `(__x + __a - 1) & ~(__a - 1)`. -/
def roundUp (x a : BitVec 64) : BitVec 64 := (x + a - 1) &&& ~~~(a - 1)

namespace RoundUp

variable {k : Nat}

theorem mask_eq (small : k < 64) :
    BitVec.ofNat 64 (2 ^ k) - 1 = BitVec.ofNat 64 (2 ^ k - 1) := by
  have positive : 0 < 2 ^ k := Nat.two_pow_pos k
  have bound : 2 ^ k < 2 ^ 64 := Nat.pow_lt_pow_right (by decide) small
  apply BitVec.eq_of_toNat_eq
  rw [BitVec.toNat_sub, show (1 : BitVec 64).toNat = 1 from rfl]
  simp only [BitVec.toNat_ofNat, Nat.mod_eq_of_lt bound]
  omega

/-- Clearing the low bits is shifting them out and back. -/
theorem and_mask (small : k < 64) (x : BitVec 64) :
    x &&& ~~~(BitVec.ofNat 64 (2 ^ k) - 1) = x >>> k <<< k := by
  rw [mask_eq small]
  apply BitVec.eq_of_getLsbD_eq
  intro i inside
  simp only [BitVec.getLsbD_and, BitVec.getLsbD_not, BitVec.getLsbD_ofNat,
    Nat.testBit_two_pow_sub_one, BitVec.getLsbD_shiftLeft, BitVec.getLsbD_ushiftRight]
  by_cases low : i < k
  · simp [low, inside]
  · have back : k + (i - k) = i := by omega
    simp [low, inside, back]

/-- As numbers: the next multiple of `2 ^ k`, unless the sum wraps. -/
theorem toNat_eq (small : k < 64) {x : Nat} (fits : x + 2 ^ k ≤ 2 ^ 64) :
    (roundUp (BitVec.ofNat 64 x) (BitVec.ofNat 64 (2 ^ k))).toNat =
      (x + 2 ^ k - 1) / 2 ^ k * 2 ^ k := by
  have positive : 0 < 2 ^ k := Nat.two_pow_pos k
  have bound : 2 ^ k < 2 ^ 64 := Nat.pow_lt_pow_right (by decide) small
  have sum : (BitVec.ofNat 64 x + BitVec.ofNat 64 (2 ^ k) - 1).toNat = x + 2 ^ k - 1 := by
    rw [BitVec.toNat_sub, show (1 : BitVec 64).toNat = 1 from rfl]
    simp only [BitVec.toNat_add, BitVec.toNat_ofNat]
    omega
  have product : (x + 2 ^ k - 1) / 2 ^ k * 2 ^ k ≤ x + 2 ^ k - 1 := Nat.div_mul_le_self _ _
  rw [roundUp, and_mask small, BitVec.toNat_shiftLeft, BitVec.toNat_ushiftRight, sum,
    Nat.shiftRight_eq_div_pow, Nat.shiftLeft_eq, Nat.mod_eq_of_lt (by omega)]

variable {x : Nat}

theorem le (small : k < 64) (fits : x + 2 ^ k ≤ 2 ^ 64) :
    x ≤ (roundUp (BitVec.ofNat 64 x) (BitVec.ofNat 64 (2 ^ k))).toNat := by
  have positive : 0 < 2 ^ k := Nat.two_pow_pos k
  rw [toNat_eq small fits]
  have split := Nat.div_add_mod (x + 2 ^ k - 1) (2 ^ k)
  have rest := Nat.mod_lt (x + 2 ^ k - 1) positive
  rw [Nat.mul_comm] at split
  omega

theorem dvd (small : k < 64) (fits : x + 2 ^ k ≤ 2 ^ 64) :
    2 ^ k ∣ (roundUp (BitVec.ofNat 64 x) (BitVec.ofNat 64 (2 ^ k))).toNat := by
  rw [toNat_eq small fits]
  exact Nat.dvd_mul_left _ _

end RoundUp

end NgrCore
