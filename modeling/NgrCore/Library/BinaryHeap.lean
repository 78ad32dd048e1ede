import Mathlib.Data.List.Basic
import Mathlib.Data.List.Perm.Basic

/-!
Owns binary heaps laid out in level order: the children of position `i` stand
at `2 * i + 1` and `2 * i + 2`. Insertion, and removal of an element wherever it
stands.

Proves what each operation does to the elements as a multiset. The order of the
heap is not owned here.
-/

namespace NgrCore.Library.BinaryHeap

variable {α : Type*}

/-- The elements at two positions change places. -/
def exchange (elements : List α) (i j : Nat) : List α :=
  match elements[i]?, elements[j]? with
  | some first, some second => (elements.set i second).set j first
  | _, _ => elements

section Operations

variable (lt : α → α → Bool)

/-- Both positions are occupied and the first element is strictly less. -/
def precedes (elements : List α) (i j : Nat) : Bool :=
  match elements[i]?, elements[j]? with
  | some first, some second => lt first second
  | _, _ => false

def parent (i : Nat) : Nat := (i - 1) / 2

/-- Move an element up past strictly greater parents. -/
def siftUp : Nat → Nat → List α → List α
  | 0, _, elements => elements
  | fuel + 1, i, elements =>
      if i ≠ 0 ∧ precedes lt elements i (parent i) then
        siftUp fuel (parent i) (exchange elements i (parent i))
      else elements

/-- The child an element sinks towards: the right one only when it is strictly
less than the left one. -/
def leastChild (elements : List α) (i : Nat) : Nat :=
  if precedes lt elements (2 * i + 2) (2 * i + 1) then 2 * i + 2 else 2 * i + 1

/-- Move an element down past strictly smaller children. -/
def siftDown : Nat → Nat → List α → List α
  | 0, _, elements => elements
  | fuel + 1, i, elements =>
      if precedes lt elements (leastChild lt elements i) i then
        siftDown fuel (leastChild lt elements i) (exchange elements i (leastChild lt elements i))
      else elements

/-- Insertion at the end, then up. -/
def push (elements : List α) (element : α) : List α :=
  siftUp lt elements.length elements.length (elements ++ [element])

/-- The element that replaces a removed one moves up if it is strictly less
than its parent, and down otherwise. -/
def settle (i : Nat) (elements : List α) : List α :=
  if i ≠ 0 ∧ precedes lt elements i (parent i) then siftUp lt i i elements
  else siftDown lt elements.length i elements

/-- The last element takes the removed one's position. -/
def removeAt (elements : List α) (i : Nat) : List α :=
  match elements.getLast? with
  | none => elements
  | some last =>
      if i + 1 = elements.length then elements.dropLast
      else settle lt i (elements.dropLast.set i last)

/-- Removal of an element, and whether it was inside. -/
def remove [DecidableEq α] (elements : List α) (element : α) : Bool × List α :=
  if element ∈ elements then (true, removeAt lt elements (elements.idxOf element))
  else (false, elements)

end Operations

theorem exchange_perm (elements : List α) (i j : Nat) :
    (exchange elements i j).Perm elements := by
  unfold exchange
  split
  · rename_i first second atFirst atSecond
    rcases List.getElem?_eq_some_iff.mp atFirst with ⟨firstInside, rfl⟩
    rcases List.getElem?_eq_some_iff.mp atSecond with ⟨secondInside, rfl⟩
    exact List.set_set_perm firstInside secondInside
  · exact List.Perm.refl _

section Multiset

variable {lt : α → α → Bool}

theorem siftUp_perm (fuel : Nat) :
    ∀ (i : Nat) (elements : List α), (siftUp lt fuel i elements).Perm elements := by
  induction fuel with
  | zero =>
      intro i elements
      exact List.Perm.refl _
  | succ fuel inductionHypothesis =>
      intro i elements
      rw [siftUp]
      split
      · exact (inductionHypothesis _ _).trans (exchange_perm _ _ _)
      · exact List.Perm.refl _

theorem siftDown_perm (fuel : Nat) :
    ∀ (i : Nat) (elements : List α), (siftDown lt fuel i elements).Perm elements := by
  induction fuel with
  | zero =>
      intro i elements
      exact List.Perm.refl _
  | succ fuel inductionHypothesis =>
      intro i elements
      rw [siftDown]
      split
      · exact (inductionHypothesis _ _).trans (exchange_perm _ _ _)
      · exact List.Perm.refl _

theorem settle_perm (i : Nat) (elements : List α) : (settle lt i elements).Perm elements := by
  unfold settle
  split
  · exact siftUp_perm _ _ _
  · exact siftDown_perm _ _ _

theorem push_perm (elements : List α) (element : α) :
    (push lt elements element).Perm (element :: elements) := by
  have appended : (elements ++ [element]).Perm (element :: elements) :=
    List.perm_append_singleton element elements
  exact (siftUp_perm _ _ _).trans appended

/-- The last element written over an inner position is the list without the
overwritten element. -/
theorem set_last_perm (front : List α) (last : α) {i : Nat} (inside : i < front.length) :
    (front[i] :: front.set i last).Perm (front ++ [last]) := by
  have split : front = front.take i ++ front[i] :: front.drop (i + 1) := by
    rw [List.getElem_cons_drop, List.take_append_drop]
  have written : front.set i last = front.take i ++ last :: front.drop (i + 1) :=
    List.set_eq_take_append_cons_drop.trans (if_pos inside)
  have whole : (front ++ [last]).Perm (last :: front) := List.perm_append_singleton last front
  have rotated : front.Perm (front[i] :: (front.take i ++ front.drop (i + 1))) :=
    (List.Perm.of_eq split).trans List.perm_middle
  rw [written]
  calc (front[i] :: (front.take i ++ last :: front.drop (i + 1))).Perm
        (front[i] :: last :: (front.take i ++ front.drop (i + 1))) := List.perm_middle.cons _
    _ |>.Perm (last :: front[i] :: (front.take i ++ front.drop (i + 1))) := List.Perm.swap _ _ _
    _ |>.Perm (last :: front) := rotated.symm.cons _
    _ |>.Perm (front ++ [last]) := whole.symm

theorem removeAt_perm (elements : List α) {i : Nat} (inside : i < elements.length) :
    (elements[i] :: removeAt lt elements i).Perm elements := by
  rcases List.eq_nil_or_concat elements with rfl | ⟨front, last, rfl⟩
  · exact absurd inside (by simp)
  unfold removeAt
  simp only [List.concat_eq_append, List.getLast?_append, List.getLast?_singleton,
    Option.some_or, List.dropLast_concat, List.length_append, List.length_singleton] at inside ⊢
  by_cases atEnd : i = front.length
  · subst atEnd
    rw [if_pos rfl]
    simpa using (List.perm_append_singleton last front).symm
  · have inFront : i < front.length := by omega
    rw [if_neg (by omega), List.getElem_append_left inFront]
    exact ((settle_perm i (front.set i last)).cons _).trans (set_last_perm front last inFront)

variable [DecidableEq α]

/-- Removal takes out one copy of the element and nothing else. -/
theorem remove_perm (elements : List α) (element : α) :
    (remove lt elements element).2.Perm (elements.erase element) := by
  unfold remove
  split
  · rename_i member
    have position : elements.idxOf element < elements.length := List.idxOf_lt_length_iff.mpr member
    have removed : (elements[elements.idxOf element] ::
        removeAt lt elements (elements.idxOf element)).Perm elements :=
      removeAt_perm elements position
    rw [List.getElem_idxOf] at removed
    exact (removed.trans (List.perm_cons_erase member)).cons_inv
  · rename_i outside
    rw [List.erase_of_not_mem outside]

end Multiset

/-! ### Positions -/

section Positions

variable {lt : α → α → Bool} {elements : List α} {i : Nat}

theorem precedes_eq_true {j : Nat} : precedes lt elements i j = true ↔
    ∃ a b, elements[i]? = some a ∧ elements[j]? = some b ∧ lt a b = true := by
  unfold precedes
  split <;> simp_all

theorem precedes_eq_false {j : Nat} : precedes lt elements i j = false ↔
    ∀ a b, elements[i]? = some a → elements[j]? = some b → lt a b = false := by
  unfold precedes
  split <;> simp_all

theorem getElem?_exchange {j : Nat} (first : i < elements.length) (second : j < elements.length)
    (m : Nat) : (exchange elements i j)[m]? =
      if m = i then elements[j]? else if m = j then elements[i]? else elements[m]? := by
  unfold exchange
  rw [List.getElem?_eq_getElem first, List.getElem?_eq_getElem second]
  simp only [List.getElem?_set]
  grind

@[simp] theorem exchange_length (elements : List α) (i j : Nat) :
    (exchange elements i j).length = elements.length := (exchange_perm elements i j).length_eq

@[simp] theorem siftDown_length (fuel i : Nat) (elements : List α) :
    (siftDown lt fuel i elements).length = elements.length :=
  (siftDown_perm fuel i elements).length_eq

@[simp] theorem siftUp_root (fuel : Nat) (elements : List α) :
    siftUp lt fuel 0 elements = elements := by
  cases fuel <;> simp [siftUp]

/-- Fuel beyond the position changes nothing. -/
theorem siftUp_fuel (fuel : Nat) : ∀ (other i : Nat) (elements : List α), i ≤ fuel → i ≤ other →
    siftUp lt fuel i elements = siftUp lt other i elements := by
  induction fuel with
  | zero =>
      intro other i elements enough _
      rw [Nat.le_zero.mp enough]
      simp
  | succ fuel inductionHypothesis =>
      intro other i elements enough more
      cases i with
      | zero => simp
      | succ i =>
          have above : parent (i + 1) ≤ i := by unfold parent; omega
          cases other with
          | zero => exact absurd more (by omega)
          | succ other =>
              rw [siftUp, siftUp, inductionHypothesis other _ _ (by omega) (by omega)]

theorem removeAt_front {front : List α} (last : α) (inside : i < front.length) :
    removeAt lt (front ++ [last]) i = settle lt i (front.set i last) := by
  simp [removeAt, Nat.ne_of_lt inside]

theorem removeAt_last (front : List α) (last : α) :
    removeAt lt (front ++ [last]) front.length = front := by
  simp [removeAt]

theorem parent_leastChild (lt : α → α → Bool) (elements : List α) (i : Nat) :
    parent (leastChild lt elements i) = i ∧ i < leastChild lt elements i := by
  unfold leastChild parent
  split <;> omega

theorem siftDown_before (fuel : Nat) : ∀ (i : Nat) (elements : List α) {j : Nat}, j < i →
    (siftDown lt fuel i elements)[j]? = elements[j]? := by
  induction fuel with
  | zero => exact fun _ _ _ _ => rfl
  | succ fuel inductionHypothesis =>
      intro i elements j earlier
      rw [siftDown]
      split
      · rename_i moves
        have lower := (parent_leastChild lt elements i).2
        rcases precedes_eq_true.mp moves with ⟨a, b, atChild, atI, _⟩
        have first : i < elements.length := (List.getElem?_eq_some_iff.mp atI).1
        have second := (List.getElem?_eq_some_iff.mp atChild).1
        rw [inductionHypothesis _ _ (by omega), getElem?_exchange first second,
          if_neg (by omega), if_neg (by omega)]
      · rfl

end Positions

end NgrCore.Library.BinaryHeap
