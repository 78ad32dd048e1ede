import Mathlib.Algebra.Group.Nat.Defs
import NgrCore.Library.Chain
import NgrCore.IoringTask

/-!
Owns `__intrusive_heap` at the level of its pointers: the root, the size, and the
three link fields stored inside each node. A pointer to a pointer is a `Slot`.

Following a null pointer and a failed assertion are faults. The fuel of a loop
bounds its rounds; running out of it is a fault as well.
-/

namespace NgrCore.IntrusiveHeap

open NgrCore.Library

inductive Fault
  | nullPointer
  | assertion
  | unfinished
deriving Repr, DecidableEq

/-- `__root_`, `__size_`, and the fields `_Prev`, `_Left` and `_Right` of every
node. -/
structure Heap where
  root : Option Addr := none
  size : Nat := 0
  prev : Links Addr
  left : Links Addr
  right : Links Addr

/-- The places a `_Node **` points to. -/
inductive Slot
  | root
  | left (node : Addr)
  | right (node : Addr)
deriving Repr, DecidableEq

def follow : Option Addr → Except Fault Addr
  | some node => .ok node
  | none => .error .nullPointer

namespace Heap

def setPrev (heap : Heap) (node : Addr) (value : Option Addr) : Heap :=
  { heap with prev := Function.update heap.prev node value }

def setLeft (heap : Heap) (node : Addr) (value : Option Addr) : Heap :=
  { heap with left := Function.update heap.left node value }

def setRight (heap : Heap) (node : Addr) (value : Option Addr) : Heap :=
  { heap with right := Function.update heap.right node value }

/-- `*__pp`. -/
def load (heap : Heap) : Slot → Option Addr
  | .root => heap.root
  | .left node => heap.left node
  | .right node => heap.right node

/-- An assignment to `*__pp`. -/
def store (heap : Heap) : Slot → Option Addr → Heap
  | .root, value => { heap with root := value }
  | .left node, value => heap.setLeft node value
  | .right node, value => heap.setRight node value

/-- An assignment through a pointer to the `_Prev` of a node, or to the local
`__sentinel`. -/
def storePrev (heap : Heap) : Option Addr → Option Addr → Heap
  | some node, value => heap.setPrev node value
  | none, _ => heap

@[simp] theorem setPrev_root (heap : Heap) (node : Addr) (value : Option Addr) :
    (heap.setPrev node value).root = heap.root := rfl
@[simp] theorem setPrev_size (heap : Heap) (node : Addr) (value : Option Addr) :
    (heap.setPrev node value).size = heap.size := rfl
@[simp] theorem setPrev_left (heap : Heap) (node : Addr) (value : Option Addr) :
    (heap.setPrev node value).left = heap.left := rfl
@[simp] theorem setPrev_right (heap : Heap) (node : Addr) (value : Option Addr) :
    (heap.setPrev node value).right = heap.right := rfl
@[simp] theorem setLeft_root (heap : Heap) (node : Addr) (value : Option Addr) :
    (heap.setLeft node value).root = heap.root := rfl
@[simp] theorem setLeft_size (heap : Heap) (node : Addr) (value : Option Addr) :
    (heap.setLeft node value).size = heap.size := rfl
@[simp] theorem setLeft_prev (heap : Heap) (node : Addr) (value : Option Addr) :
    (heap.setLeft node value).prev = heap.prev := rfl
@[simp] theorem setLeft_right (heap : Heap) (node : Addr) (value : Option Addr) :
    (heap.setLeft node value).right = heap.right := rfl
@[simp] theorem setRight_root (heap : Heap) (node : Addr) (value : Option Addr) :
    (heap.setRight node value).root = heap.root := rfl
@[simp] theorem setRight_size (heap : Heap) (node : Addr) (value : Option Addr) :
    (heap.setRight node value).size = heap.size := rfl
@[simp] theorem setRight_prev (heap : Heap) (node : Addr) (value : Option Addr) :
    (heap.setRight node value).prev = heap.prev := rfl
@[simp] theorem setRight_left (heap : Heap) (node : Addr) (value : Option Addr) :
    (heap.setRight node value).left = heap.left := rfl

theorem setPrev_prev (heap : Heap) (node other : Addr) (value : Option Addr) :
    (heap.setPrev node value).prev other = if other = node then value else heap.prev other :=
  Function.update_apply _ _ _ _
theorem setLeft_left (heap : Heap) (node other : Addr) (value : Option Addr) :
    (heap.setLeft node value).left other = if other = node then value else heap.left other :=
  Function.update_apply _ _ _ _
theorem setRight_right (heap : Heap) (node other : Addr) (value : Option Addr) :
    (heap.setRight node value).right other = if other = node then value else heap.right other :=
  Function.update_apply _ _ _ _

@[simp] theorem store_size (heap : Heap) (pp : Slot) (value : Option Addr) :
    (heap.store pp value).size = heap.size := by
  cases pp <;> rfl
@[simp] theorem store_prev (heap : Heap) (pp : Slot) (value : Option Addr) :
    (heap.store pp value).prev = heap.prev := by
  cases pp <;> rfl

end Heap

/-- `std::bit_ceil`. -/
def bitCeil (n : Nat) : Nat := if n ≤ 1 then 1 else 2 ^ (Nat.log2 (n - 1) + 1)

def pathBitMask (n : Nat) : Nat := bitCeil (n + 1) / 4

/-- The child of a node that a path goes to. -/
def childSlot (mask path : Nat) (node : Addr) : Slot :=
  if mask &&& path ≠ 0 then .right node else .left node

section Operations

variable (lt : Addr → Addr → Bool)

/-- The inner loop of `_M_push`, and what follows it: `node` takes the place of
`p`, and `p` moves on along the path. -/
def displaceLoop (k : Nat) : Nat → Nat → Addr → Option Addr → Heap → Except Fault Heap
  | 0, _, _, _, _ => .error .unfinished
  | fuel + 1, mask, node, p, heap => do
      let moved ← follow p
      let (next, heap) ← if mask &&& k ≠ 0 then do
          let heap := heap.setRight node (some moved)
          let heap := heap.setLeft node (heap.left moved)
          let sibling ← follow (heap.left moved)
          let heap := heap.setPrev sibling (some node)
          pure (heap.right moved, heap)
        else
          let heap := heap.setRight node (heap.right moved)
          let heap := heap.setLeft node (some moved)
          let heap := heap.storePrev (heap.right moved) (some node)
          pure (heap.left moved, heap)
      if mask / 2 ≠ 0 then displaceLoop k fuel (mask / 2) moved next heap
      else if heap.right moved = none then .ok (heap.setLeft moved none)
      else .error .assertion

/-- The outer loop of `_M_push`, and what follows it. -/
def pushLoop (node : Addr) (k : Nat) :
    Nat → Nat → Slot → Option Addr → Option Addr → Heap → Except Fault Heap
  | 0, _, _, _, _, _ => .error .unfinished
  | fuel + 1, mask, pp, p, q, heap =>
      if mask ≠ 0 then do
        let here ← follow p
        if lt node here then
          let heap := heap.setPrev node q
          let heap := heap.setPrev here (some node)
          let heap := heap.store pp (some node)
          displaceLoop k fuel mask node p heap
        else
          let pp := childSlot mask k here
          pushLoop node k fuel (mask / 2) pp (heap.load pp) p heap
      else
        let heap := heap.store pp (some node)
        let heap := heap.setPrev node q
        let heap := heap.setRight node none
        .ok (heap.setLeft node none)

def push (heap : Heap) (node : Addr) : Except Fault Heap :=
  let heap := { heap with size := heap.size + 1 }
  pushLoop lt node heap.size heap.size (pathBitMask heap.size) .root heap.root none heap

def swapWithRightChild (parent child : Addr) (heap : Heap) : Heap :=
  let heap := heap.setRight parent (heap.right child)
  let heap := heap.setRight child (some parent)
  let tmp := heap.left parent
  let heap := heap.setLeft parent (heap.left child)
  heap.setLeft child tmp

def swapWithLeftChild (parent child : Addr) (heap : Heap) : Heap :=
  let tmp := heap.right parent
  let heap := heap.setRight parent (heap.right child)
  let heap := heap.setRight child tmp
  let heap := heap.setLeft parent (heap.left child)
  heap.setLeft child (some parent)

/-- The loop of `__heap_up_percolate`, and what follows it. `parentX` is the node
whose `_Prev` `__parent_x` points to; `none` is the sentinel. -/
def percolateLoop (p : Addr) :
    Nat → Addr → Option Addr → Option Addr → Heap → Except Fault Heap
  | 0, _, _, _, _ => .error .unfinished
  | fuel + 1, parent, grandParent, parentX, heap => do
      let heap := heap.storePrev parentX (some parent)
      let (parentX, heap) ← if heap.right parent = some p then do
          let sibling ← follow (heap.left parent)
          pure (some sibling, swapWithRightChild parent p heap)
        else do
          let sibling ← follow (heap.right parent)
          pure (some sibling, swapWithLeftChild parent p heap)
      let parentY := parent
      let grand ← follow grandParent
      let heap := if heap.right grand = some parent then heap.setRight grand (some p)
        else heap.setLeft grand (some p)
      if lt p grand then
        percolateLoop p fuel grand (heap.prev grand) parentX heap
      else
        let heap := heap.storePrev parentX (some p)
        let heap := heap.setPrev parentY (some p)
        .ok (heap.setPrev p (some grand))

def heapUpPercolate (fuel : Nat) (p parent : Addr) (heap : Heap) : Except Fault Heap :=
  let parentX := heap.left p
  let heap := heap.storePrev (heap.right p) (some parent)
  percolateLoop lt p fuel parent (heap.prev parent) parentX heap

def heapDownSink (p : Addr) : Nat → Slot → Option Addr → Heap → Except Fault Heap
  | 0, _, _, _ => .error .unfinished
  | fuel + 1, pp, parent, heap =>
      match heap.left p, heap.right p with
      | none, _ => .ok (heap.setPrev p parent)
      | some l, some r =>
          if lt r l then
            if lt r p then
              let heap := swapWithRightChild p r heap
              let heap := heap.setPrev l (some r)
              let heap := heap.store pp (some r)
              heapDownSink p fuel (.right r) (some r) heap
            else
              let heap := heap.setPrev r (some p)
              let heap := heap.setPrev l (some p)
              .ok (heap.setPrev p parent)
          else if lt l p then
            let heap := swapWithLeftChild p l heap
            let heap := heap.setPrev r (some l)
            let heap := heap.store pp (some l)
            heapDownSink p fuel (.left l) (some l) heap
          else
            let heap := heap.setPrev r (some p)
            let heap := heap.setPrev l (some p)
            .ok (heap.setPrev p parent)
      | some l, none =>
          if lt l p then
            let heap := swapWithLeftChild p l heap
            let heap := heap.store pp (some l)
            heapDownSink p fuel (.left l) (some l) heap
          else
            let heap := heap.setPrev l (some p)
            .ok (heap.setPrev p parent)

def removeLeastLeaf (path : Nat) :
    Nat → Nat → Slot → Option Addr → Heap → Except Fault (Option Addr × Heap)
  | 0, _, _, _, _ => .error .unfinished
  | fuel + 1, mask, pp, p, heap =>
      if mask ≠ 0 then do
        let here ← follow p
        let pp := childSlot mask path here
        removeLeastLeaf path fuel (mask / 2) pp (heap.load pp) heap
      else .ok (p, heap.store pp none)

/-- The call `__remove_least_leaf(&__root_, __size_)`. -/
def leastLeaf (heap : Heap) : Except Fault (Option Addr × Heap) :=
  removeLeastLeaf heap.size heap.size (pathBitMask heap.size) .root heap.root heap

def pop (heap : Heap) : Except Fault Heap :=
  if heap.size ≤ 1 then .ok { heap with root := none, size := 0 }
  else if heap.root = none then .error .assertion
  else do
    let (leaf, heap) ← leastLeaf heap
    let p ← follow leaf
    let top ← follow heap.root
    let heap := heap.setRight p (heap.right top)
    let heap := heap.setLeft p (heap.left top)
    let heap := { heap with root := some p, size := heap.size - 1 }
    let heap ← heapDownSink lt p heap.size .root none heap
    let root ← follow heap.root
    pure (heap.setPrev root none)

def remove (heap : Heap) (node : Addr) : Except Fault (Bool × Heap) :=
  if heap.prev node = none ∧ some node ≠ heap.root then .ok (false, heap)
  else if heap.root = none then .error .assertion
  else if heap.size = 0 then .error .assertion
  else do
    let (leaf, heap) ← leastLeaf heap
    let heap := { heap with size := heap.size - 1 }
    if leaf = some node then pure (true, heap.setPrev node none)
    else
      let p ← follow leaf
      let heap := heap.setRight p (heap.right node)
      let heap := heap.setLeft p (heap.left node)
      match heap.prev node with
      | some parent =>
          let pp := if heap.right parent = some node then Slot.right parent else .left parent
          let heap := heap.store pp (some p)
          if lt p parent then
            let heap ← heapUpPercolate lt heap.size p parent heap
            pure (true, heap.setPrev node none)
          else
            settleDown heap p pp (some parent) node
      | none =>
          let heap := heap.store .root (some p)
          settleDown heap p .root none node
where
  /-- The end of `_M_remove`. -/
  settleDown (heap : Heap) (p : Addr) (pp : Slot) (parent : Option Addr) (node : Addr) :
      Except Fault (Bool × Heap) := do
    let heap ← heapDownSink lt p heap.size pp parent heap
    let settled ← follow (heap.load pp)
    let heap := heap.setPrev settled parent
    pure (true, heap.setPrev node none)

end Operations

end NgrCore.IntrusiveHeap
