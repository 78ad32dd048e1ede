import Mathlib.Data.List.Basic

/-!
Owns byte memories: a run of bytes read or written at an address, and what a write leaves
to a read beside it.
-/

namespace NgrCore.Library

abbrev Bytes := Nat → BitVec 8

namespace Bytes

variable {memory other : Bytes} {address count : Nat} {bytes : List (BitVec 8)}

/-- The `count` bytes from an address on. -/
def read (memory : Bytes) (address count : Nat) : List (BitVec 8) :=
  (List.range count).map fun i => memory (address + i)

/-- The bytes, one after the other, from an address on. -/
def write (memory : Bytes) (address : Nat) (bytes : List (BitVec 8)) : Bytes := fun position =>
  if position < address then memory position
  else bytes[position - address]?.getD (memory position)

theorem read_congr (same : ∀ position, address ≤ position → position < address + count →
    memory position = other position) : memory.read address count = other.read address count := by
  unfold read
  apply List.map_congr_left
  intro i member
  have below := List.mem_range.mp member
  exact same _ (by omega) (by omega)

theorem write_outside {position : Nat}
    (outside : position < address ∨ address + bytes.length ≤ position) :
    memory.write address bytes position = memory position := by
  unfold write
  split
  · rfl
  · rw [List.getElem?_eq_none (by omega), Option.getD_none]

/-- What was written is read back. -/
theorem read_write : (memory.write address bytes).read address bytes.length = bytes := by
  unfold read write
  apply List.ext_getElem
  · simp
  · intro i left right
    have inside : ¬address + i < address := by omega
    simp only [List.getElem_map, List.getElem_range, if_neg inside, Nat.add_sub_cancel_left,
      List.getElem?_eq_getElem right, Option.getD_some]

theorem read_write_outside {begins : Nat}
    (outside : begins + count ≤ address ∨ address + bytes.length ≤ begins) :
    (memory.write address bytes).read begins count = memory.read begins count := by
  apply read_congr
  intro position first last
  apply write_outside
  omega

end Bytes

end NgrCore.Library
