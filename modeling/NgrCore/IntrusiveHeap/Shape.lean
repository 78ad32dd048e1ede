import NgrCore.Library.HeapOrder
import NgrCore.IntrusiveHeap

/-!
Owns the reading of a heap's pointers as a complete binary tree in level order:
the node at a position, if any, links to the nodes at the positions of its
children, and its `_Prev` to the node at the position of its parent.
-/

namespace NgrCore.IntrusiveHeap

open NgrCore.Library
open NgrCore.Library.BinaryHeap (parent)

/-- The root and the child links read the nodes at the positions. -/
structure Shape (heap : Heap) (slot : Nat → Option Addr) : Prop where
  root : heap.root = slot 0
  left : ∀ {j node}, slot j = some node → heap.left node = slot (2 * j + 1)
  right : ∀ {j node}, slot j = some node → heap.right node = slot (2 * j + 2)
  distinct : ∀ {j k node}, slot j = some node → slot k = some node → j = k

/-- The node at the parent's position; the root has none. -/
def above (slot : Nat → Option Addr) (j : Nat) : Option Addr :=
  if j = 0 then none else slot (parent j)

/-- The `_Prev` of the node at a position is its parent. -/
def Linked (heap : Heap) (slot : Nat → Option Addr) (j : Nat) : Prop :=
  ∀ node, slot j = some node → heap.prev node = above slot j

/-- The heap is the complete tree of the nodes in level order. -/
structure Represents (heap : Heap) (nodes : List Addr) : Prop where
  shape : Shape heap fun j => nodes[j]?
  size : heap.size = nodes.length
  linked : ∀ j, Linked heap (fun j => nodes[j]?) j

/-- The pointer that holds the node at a position. -/
inductive Cursor (slot : Nat → Option Addr) : Nat → Slot → Prop
  | root : Cursor slot 0 .root
  | left {j : Nat} {node : Addr} (here : slot j = some node) : Cursor slot (2 * j + 1) (.left node)
  | right {j : Nat} {node : Addr} (here : slot j = some node) :
      Cursor slot (2 * j + 2) (.right node)

/-- The positions after an exchange. -/
def exchanged (slot : Nat → Option Addr) (i j : Nat) : Nat → Option Addr := fun m =>
  if m = i then slot j else if m = j then slot i else slot m

theorem slots_exchange {nodes : List Addr} {i j : Nat} (first : i < nodes.length)
    (second : j < nodes.length) :
    (fun m => (BinaryHeap.exchange nodes i j)[m]?) = exchanged (fun m => nodes[m]?) i j :=
  funext fun m => BinaryHeap.getElem?_exchange first second m

variable {heap : Heap} {slot : Nat → Option Addr} {i : Nat} {pp : Slot}

theorem Shape.load (shape : Shape heap slot) (cursor : Cursor slot i pp) :
    heap.load pp = slot i := by
  cases cursor with
  | root => exact shape.root
  | left here => exact shape.left here
  | right here => exact shape.right here

/-- Everything but the pointer to one position reads the positions. -/
structure ShapeBut (heap : Heap) (slot : Nat → Option Addr) (i : Nat) : Prop where
  root : i ≠ 0 → heap.root = slot 0
  left : ∀ {j node}, slot j = some node → 2 * j + 1 ≠ i → heap.left node = slot (2 * j + 1)
  right : ∀ {j node}, slot j = some node → 2 * j + 2 ≠ i → heap.right node = slot (2 * j + 2)
  distinct : ∀ {j k node}, slot j = some node → slot k = some node → j = k

theorem ShapeBut.store (shape : ShapeBut heap slot i) (cursor : Cursor slot i pp) :
    Shape (heap.store pp (slot i)) slot := by
  cases cursor with
  | root =>
      exact ⟨rfl, fun here => shape.left here (by omega), fun here => shape.right here (by omega),
        shape.distinct⟩
  | @left k parent atParent =>
      refine ⟨shape.root (by omega), ?_, fun here => shape.right here (by omega), shape.distinct⟩
      intro j node here
      rw [Heap.store, Heap.setLeft_left]
      split
      · rename_i same
        rw [shape.distinct atParent (same ▸ here)]
      · rename_i other
        apply shape.left here
        rintro position
        have same : j = k := by omega
        rw [same, atParent] at here
        exact other (Option.some.inj here).symm
  | @right k parent atParent =>
      refine ⟨shape.root (by omega), fun here => shape.left here (by omega), ?_, shape.distinct⟩
      intro j node here
      rw [Heap.store, Heap.setRight_right]
      split
      · rename_i same
        rw [shape.distinct atParent (same ▸ here)]
      · rename_i other
        apply shape.right here
        rintro position
        have same : j = k := by omega
        rw [same, atParent] at here
        exact other (Option.some.inj here).symm

theorem Shape.setPrev (shape : Shape heap slot) (node : Addr) (value : Option Addr) :
    Shape (heap.setPrev node value) slot :=
  ⟨shape.root, shape.left, shape.right, shape.distinct⟩

theorem ShapeBut.setPrev (shape : ShapeBut heap slot i) (node : Addr) (value : Option Addr) :
    ShapeBut (heap.setPrev node value) slot i :=
  ⟨shape.root, shape.left, shape.right, shape.distinct⟩

/-- The pointer that holds a position does not depend on what stands there or
below. -/
theorem Cursor.congr {other : Nat → Option Addr} (cursor : Cursor slot i pp)
    (same : ∀ j, j < i → other j = slot j) : Cursor other i pp := by
  cases cursor with
  | root => exact .root
  | left here => exact .left ((same _ (by omega)).trans here)
  | right here => exact .right ((same _ (by omega)).trans here)

theorem exchanged_before {c j : Nat} (first : j < i) (second : i < c) :
    exchanged slot i c j = slot j := by
  simp [exchanged, show j ≠ i by omega, show j ≠ c by omega]

/-! ### A node and its child change places -/

theorem swapWithRightChild_left {p r : Addr} (node : Addr) :
    (swapWithRightChild p r heap).left node =
      if node = r then heap.left p else if node = p then heap.left r else heap.left node := by
  simp [swapWithRightChild, Heap.setLeft_left]

theorem swapWithRightChild_right {p r : Addr} (node : Addr) :
    (swapWithRightChild p r heap).right node =
      if node = r then some p else if node = p then heap.right r else heap.right node := by
  simp [swapWithRightChild, Heap.setRight_right]

theorem swapWithLeftChild_left {p l : Addr} (node : Addr) :
    (swapWithLeftChild p l heap).left node =
      if node = l then some p else if node = p then heap.left l else heap.left node := by
  simp [swapWithLeftChild, Heap.setLeft_left]

theorem swapWithLeftChild_right {p l : Addr} (node : Addr) :
    (swapWithLeftChild p l heap).right node =
      if node = l then heap.right p else if node = p then heap.right l else heap.right node := by
  simp [swapWithLeftChild, Heap.setRight_right]

@[simp] theorem swapWithRightChild_prev (p r : Addr) :
    (swapWithRightChild p r heap).prev = heap.prev := rfl
@[simp] theorem swapWithRightChild_size (p r : Addr) :
    (swapWithRightChild p r heap).size = heap.size := rfl
@[simp] theorem swapWithLeftChild_prev (p l : Addr) :
    (swapWithLeftChild p l heap).prev = heap.prev := rfl
@[simp] theorem swapWithLeftChild_size (p l : Addr) :
    (swapWithLeftChild p l heap).size = heap.size := rfl

theorem exchanged_distinct {c : Nat}
    (distinct : ∀ {j k node}, slot j = some node → slot k = some node → j = k)
    {j k : Nat} {node : Addr} (first : exchanged slot i c j = some node)
    (second : exchanged slot i c k = some node) : j = k := by
  unfold exchanged at first second
  have same := @distinct
  split at first <;> split at second <;> grind

theorem Shape.swapRight (shape : Shape heap slot) {p r : Addr} (atP : slot i = some p)
    (atR : slot (2 * i + 2) = some r) :
    ShapeBut (swapWithRightChild p r heap) (exchanged slot i (2 * i + 2)) i := by
  have apart : p ≠ r := by
    rintro rfl
    have same := shape.distinct atP atR
    omega
  constructor
  · intro inner
    simp [exchanged, Ne.symm inner, swapWithRightChild, shape.root]
  · intro j node here other
    rw [swapWithRightChild_left]
    have left := @shape.left
    have distinct := @shape.distinct
    unfold exchanged at here ⊢
    grind
  · intro j node here other
    rw [swapWithRightChild_right]
    have right := @shape.right
    have distinct := @shape.distinct
    unfold exchanged at here ⊢
    grind
  · exact fun first second => exchanged_distinct shape.distinct first second

theorem Shape.swapLeft (shape : Shape heap slot) {p l : Addr} (atP : slot i = some p)
    (atL : slot (2 * i + 1) = some l) :
    ShapeBut (swapWithLeftChild p l heap) (exchanged slot i (2 * i + 1)) i := by
  have apart : p ≠ l := by
    rintro rfl
    have same := shape.distinct atP atL
    omega
  constructor
  · intro inner
    simp [exchanged, Ne.symm inner, swapWithLeftChild, shape.root]
  · intro j node here other
    rw [swapWithLeftChild_left]
    have left := @shape.left
    have distinct := @shape.distinct
    unfold exchanged at here ⊢
    grind
  · intro j node here other
    rw [swapWithLeftChild_right]
    have right := @shape.right
    have distinct := @shape.distinct
    unfold exchanged at here ⊢
    grind
  · exact fun first second => exchanged_distinct shape.distinct first second

end NgrCore.IntrusiveHeap
