import Mathlib.Data.BitVec
import Mathlib.Tactic.Ring

/-!
Owns the arithmetic of free-running 32-bit ring counters. A counter is an
unbounded position taken modulo 2^32; the slot of a counter is its low bits.

Every fact is stated about positions, which are natural numbers that never
wrap, so that the wrap at 2^32 is dealt with once, here.
-/

namespace NgrCore.Library

/-- A ring whose number of slots is a power of two below 2^32, with its mask. -/
structure RingShape where
  bits : Nat
  nSlot : BitVec 32
  mask : BitVec 32
  bits_lt : bits < 32
  nSlot_eq : nSlot = BitVec.ofNat 32 (2 ^ bits)
  mask_eq : mask = nSlot - 1

/-- The counter that stands for a position. -/
def counter (position : Nat) : BitVec 32 := BitVec.ofNat 32 position

/-- The slot a counter selects. -/
def slot (mask value : BitVec 32) : Nat := (value &&& mask).toNat

namespace RingShape

variable (shape : RingShape)

def size : Nat := 2 ^ shape.bits

theorem size_pos : 0 < shape.size := Nat.two_pow_pos _

theorem size_lt : shape.size < 2 ^ 32 :=
  Nat.pow_lt_pow_right (by decide) shape.bits_lt

theorem nSlot_toNat : shape.nSlot.toNat = shape.size := by
  rw [shape.nSlot_eq, BitVec.toNat_ofNat]
  exact Nat.mod_eq_of_lt shape.size_lt

theorem mask_toNat : shape.mask.toNat = 2 ^ shape.bits - 1 := by
  have positive := shape.size_pos
  have small := shape.size_lt
  have slots := shape.nSlot_toNat
  rw [shape.mask_eq]
  unfold size at *
  bv_omega

/-- A ring of two slots. -/
def pair : RingShape where
  bits := 1
  nSlot := 2
  mask := 1
  bits_lt := by decide
  nSlot_eq := rfl
  mask_eq := rfl

end RingShape

@[simp] theorem counter_toNat (position : Nat) :
    (counter position).toNat = position % 2 ^ 32 := BitVec.toNat_ofNat _ _

theorem counter_of_toNat (value : BitVec 32) : counter value.toNat = value := by
  simp [counter]

theorem counter_succ (position : Nat) : counter position + 1 = counter (position + 1) := by
  simp [counter, BitVec.ofNat_add]

theorem counter_add (position count : Nat) :
    counter position + BitVec.ofNat 32 count = counter (position + count) := by
  simp [counter, BitVec.ofNat_add]

/-- The unsigned difference of two counters is the distance of their
positions, wrapped or not. -/
theorem counter_sub {first second : Nat} (ordered : first ≤ second)
    (near : second - first < 2 ^ 32) :
    (counter second - counter first).toNat = second - first := by
  rw [BitVec.toNat_sub, counter_toNat, counter_toNat]
  omega

theorem counter_inj {first second : Nat} (ordered : first ≤ second)
    (near : second - first < 2 ^ 32) (same : counter first = counter second) :
    first = second := by
  have distance := counter_sub ordered near
  rw [same, BitVec.sub_self] at distance
  have zero : (0#32).toNat = 0 := rfl
  omega

/-- Any two counters are positions at their unsigned distance. -/
theorem exists_positions (head tail : BitVec 32) :
    ∃ first second, head = counter first ∧ tail = counter second ∧
      second = first + (tail - head).toNat := by
  refine ⟨head.toNat, head.toNat + (tail - head).toNat, (counter_of_toNat _).symm, ?_, rfl⟩
  apply BitVec.eq_of_toNat_eq
  rw [counter_toNat, BitVec.toNat_sub]
  have headBound := head.isLt
  have tailBound := tail.isLt
  omega

theorem slot_counter (shape : RingShape) (position : Nat) :
    slot shape.mask (counter position) = position % shape.size := by
  have divides : 2 ^ shape.bits ∣ 2 ^ 32 := Nat.pow_dvd_pow 2 shape.bits_lt.le
  unfold slot
  rw [BitVec.toNat_and, shape.mask_toNat, counter_toNat, Nat.and_two_pow_sub_one_eq_mod,
    Nat.mod_mod_of_dvd _ divides]
  rfl

/-! ### The cells between two positions -/

section Window

universe u

variable {α : Type u}

/-- The cells of `count` positions from `first` on, oldest first. -/
def window (cell : Nat → α) (first count : Nat) : List α :=
  (List.range' first count).map cell

theorem window_append (cell : Nat → α) (first count more : Nat) :
    window cell first (count + more) =
      window cell first count ++ window cell (first + count) more := by
  unfold window
  rw [← List.map_append, List.range'_append_1]

theorem window_drop (cell : Nat → α) (first count consumed : Nat) :
    (window cell first count).drop consumed =
      window cell (first + consumed) (count - consumed) := by
  unfold window
  rw [← List.map_drop, List.drop_range', Nat.mul_one]

@[simp] theorem window_length (cell : Nat → α) (first count : Nat) :
    (window cell first count).length = count := by
  simp [window]

theorem window_congr {cell other : Nat → α} {first count : Nat}
    (same : ∀ position, first ≤ position → position < first + count →
      cell position = other position) : window cell first count = window other first count := by
  unfold window
  apply List.map_congr_left
  intro position member
  have within := List.mem_range'_1.mp member
  exact same position within.1 within.2

/-- A window whose cells are the first elements of a list. -/
theorem window_eq_take {cell : Nat → α} {first count : Nat} {elements : List α}
    (stored : ∀ i < count, elements[i]? = some (cell (first + i))) :
    window cell first count = elements.take count := by
  apply List.ext_getElem?
  intro i
  by_cases inside : i < count
  · rw [List.getElem?_take_of_lt inside, stored i inside]
    simp [window, inside]
  · simp [window, inside]

/-- The end of a window moves on by `more`, its beginning to `head`; the cells
still between them are as before. -/
theorem window_advance {cell other : Nat → α} {first last more head : Nat} (low : first ≤ head)
    (ordered : first ≤ last)
    (same : ∀ position, head ≤ position → position < last → cell position = other position) :
    window cell head (last + more - head) =
      (window other first (last - first) ++ window cell last more).drop (head - first) := by
  rcases Nat.le_total head last with behind | past
  · have split : last + more - head = (last - head) + more := by omega
    have rest : head + (last - head) = last := by omega
    have begins : first + (head - first) = head := by omega
    have left : last - first - (head - first) = last - head := by omega
    have within : head - first ≤ (window other first (last - first)).length := by
      rw [window_length]
      omega
    rw [split, window_append, rest, List.drop_append_of_le_length within, window_drop, begins,
      left]
    congr 1
    apply window_congr
    intro position atLeast below
    exact same position atLeast (by omega)
  · have passed : (window other first (last - first)).length ≤ head - first := by
      rw [window_length]
      omega
    have begins : last + (head - first - (last - first)) = head := by omega
    have left : more - (head - first - (last - first)) = last + more - head := by omega
    rw [List.drop_append, List.drop_eq_nil_of_le passed, List.nil_append, window_length,
      window_drop, begins, left]

/-- A ring read slot by slot from one counter on shows the window of its
position. -/
theorem map_slots (shape : RingShape) (cell : Nat → α) (first count : Nat) :
    (List.range count).map
        (fun i => cell (slot shape.mask (counter first + BitVec.ofNat 32 i))) =
      window (fun position => cell (position % shape.size)) first count := by
  unfold window
  rw [List.range'_eq_map_range, List.map_map]
  apply List.map_congr_left
  intro i _
  rw [counter_add, slot_counter]
  rfl

end Window

/-- Different positions inside one window of the ring's size have different
slots. -/
theorem mod_size_ne {size first second : Nat} (ordered : first < second)
    (window : second < first + size) : first % size ≠ second % size := by
  intro same
  have multiple : size ∣ second - first := (Nat.modEq_iff_dvd' ordered.le).mp same
  have large := Nat.le_of_dvd (by omega) multiple
  omega

end NgrCore.Library
