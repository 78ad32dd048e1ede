import NgrCore.IntrusiveHeap.History

/-!
Owns the reading of a heap as an array, position by position from the root, and the
simulation of the array heap: every operation on the pointers reads as the operation on
the array.
-/

namespace NgrCore.IntrusiveHeap

open NgrCore.Library
open NgrCore.Library.BinaryHeap (parent Ordered WeakOrder siftUp siftDown removeAt)

/-- The node at a position, found from the root along the child links. -/
def nodeAt (heap : Heap) : Nat → Option Addr
  | 0 => heap.root
  | i + 1 => (nodeAt heap (i / 2)).bind fun p => if i % 2 = 0 then heap.left p else heap.right p

/-- The heap in level order. -/
def levelOrder (heap : Heap) : List Addr := (List.range heap.size).filterMap (nodeAt heap)

/-- A well-formed heap: the complete, ordered tree of some nodes. -/
structure Tree (lt : Addr → Addr → Bool) (heap : Heap) (nodes : List Addr) : Prop where
  represents : Represents heap nodes
  ordered : Ordered lt nodes
  idle : Idle heap nodes

section Reading

variable {heap : Heap} {nodes : List Addr}

theorem filterMap_range (nodes : List Addr) :
    (List.range nodes.length).filterMap (fun i => nodes[i]?) = nodes := by
  induction nodes using List.reverseRecOn with
  | nil => rfl
  | append_singleton front last inductionHypothesis =>
      rw [List.length_append, List.length_singleton, List.range_succ, List.filterMap_append]
      congr 1
      · calc
          (List.range front.length).filterMap (fun i => (front ++ [last])[i]?)
              = (List.range front.length).filterMap (fun i => front[i]?) := by
                apply List.filterMap_congr
                intro i member
                exact List.getElem?_append_left (List.mem_range.mp member)
            _ = front := inductionHypothesis
      · simp

theorem Represents.nodeAt_eq (represents : Represents heap nodes) (i : Nat) :
    nodeAt heap i = nodes[i]? := by
  induction i using Nat.strongRecOn with
  | ind i inductionHypothesis =>
      cases i with
      | zero =>
          rw [nodeAt]
          exact represents.shape.root
      | succ i =>
          rw [nodeAt, inductionHypothesis (i / 2) (by omega)]
          cases here : nodes[i / 2]? with
          | none =>
              have outside := List.getElem?_eq_none_iff.mp here
              exact (List.getElem?_eq_none_iff.mpr (by omega)).symm
          | some p =>
              rw [Option.bind_some]
              by_cases even : i % 2 = 0
              · rw [if_pos even, represents.shape.left here]
                congr 1
                omega
              · rw [if_neg even, represents.shape.right here]
                congr 1
                omega

theorem Represents.levelOrder_eq (represents : Represents heap nodes) :
    levelOrder heap = nodes := by
  unfold levelOrder
  rw [represents.size, funext represents.nodeAt_eq]
  exact filterMap_range nodes

end Reading

section Simulation

variable {lt : Addr → Addr → Bool} {heap : Heap} {nodes : List Addr}

/-- The operations read as those on the array. -/
structure Simulates (lt : Addr → Addr → Bool) (heap : Heap) : Prop where
  push : ∀ node, node ∉ levelOrder heap → ∃ next nodes, push lt heap node = .ok next ∧
    Tree lt next nodes ∧ levelOrder next =
      siftUp lt (levelOrder heap).length (levelOrder heap).length (levelOrder heap ++ [node])
  popLast : (levelOrder heap).length ≤ 1 → ∃ next, pop lt heap = .ok next ∧ Tree lt next [] ∧
    levelOrder next = []
  pop : ∀ first middle last, levelOrder heap = first :: middle ++ [last] →
    ∃ next nodes, pop lt heap = .ok next ∧ Tree lt next nodes ∧
      levelOrder next = siftDown lt (middle.length + 1) 0 (last :: middle)
  removeLast : ∀ front last, levelOrder heap = front ++ [last] →
    ∃ next nodes, remove lt heap last = .ok (true, next) ∧ Tree lt next nodes ∧
      levelOrder next = front
  remove : ∀ front last i node, levelOrder heap = front ++ [last] → front[i]? = some node →
    ∃ next nodes, remove lt heap node = .ok (true, next) ∧ Tree lt next nodes ∧
      levelOrder next =
        if i ≠ 0 ∧ BinaryHeap.precedes lt (front.set i last) i (parent i) = true then
          siftUp lt i i (front.set i last)
        else siftDown lt front.length i (front.set i last)

theorem Tree.push (weak : WeakOrder lt) (tree : Tree lt heap nodes) {node : Addr}
    (fresh : node ∉ nodes) : ∃ next, push lt heap node = .ok next ∧
      Tree lt next (BinaryHeap.push lt nodes node) := by
  obtain ⟨next, result, represents, idle⟩ := push_spec weak tree.represents tree.ordered tree.idle
    fresh
  exact ⟨next, result, represents, BinaryHeap.push_ordered weak tree.ordered node, idle⟩

theorem Tree.popped (tree : Tree lt heap nodes) : ∃ next, pop lt heap = .ok next ∧
    Represents next (removeAt lt nodes 0) ∧ Idle next (removeAt lt nodes 0) :=
  pop_spec tree.represents tree.idle

theorem Tree.pop (weak : WeakOrder lt) (tree : Tree lt heap nodes) (inside : 0 < nodes.length) :
    ∃ next, pop lt heap = .ok next ∧ Tree lt next (removeAt lt nodes 0) := by
  obtain ⟨next, result, represents, idle⟩ := tree.popped
  exact ⟨next, result, represents, BinaryHeap.removeAt_ordered weak tree.ordered inside, idle⟩

theorem Tree.remove (weak : WeakOrder lt) {front : List Addr} {leaf node : Addr} {i : Nat}
    (tree : Tree lt heap (front ++ [leaf])) (here : front[i]? = some node) :
    ∃ next, remove lt heap node = .ok (true, next) ∧
      Tree lt next (removeAt lt (front ++ [leaf]) i) := by
  have inside := (List.getElem?_eq_some_iff.mp here).1
  obtain ⟨next, result, represents, idle⟩ := remove_inner weak tree.represents tree.ordered
    tree.idle here
  refine ⟨next, result, represents, BinaryHeap.removeAt_ordered weak tree.ordered ?_, idle⟩
  rw [List.length_append]
  exact Nat.lt_add_right 1 inside

/-- The pointer heap simulates the array heap. -/
theorem simulates (weak : WeakOrder lt) (tree : Tree lt heap nodes) : Simulates lt heap := by
  have read := tree.represents.levelOrder_eq
  constructor
  · intro node fresh
    rw [read] at fresh ⊢
    obtain ⟨next, result, after⟩ := tree.push weak fresh
    exact ⟨next, _, result, after, after.represents.levelOrder_eq⟩
  · intro short
    rw [read] at short
    have nothing : removeAt lt nodes 0 = [] := by
      cases nodes with
      | nil => rfl
      | cons first rest =>
          have alone : rest = [] := List.eq_nil_of_length_eq_zero (by simpa using short)
          subst alone
          exact BinaryHeap.removeAt_last [] first
    obtain ⟨next, result, represents, idle⟩ := tree.popped
    rw [nothing] at represents idle
    have ordered : Ordered lt [] := by
      intro j _
      exact BinaryHeap.precedes_eq_false.mpr fun a b atJ _ => by simp at atJ
    exact ⟨next, result, ⟨represents, ordered, idle⟩, represents.levelOrder_eq⟩
  · intro first middle last whole
    rw [read] at whole
    subst whole
    obtain ⟨next, result, after⟩ := tree.pop weak (by simp)
    refine ⟨next, _, result, after, after.represents.levelOrder_eq.trans ?_⟩
    rw [BinaryHeap.removeAt_front last (by simp), BinaryHeap.settle, if_neg (by simp)]
    rfl
  · intro front last whole
    rw [read] at whole
    subst whole
    have removed : ∃ next, NgrCore.IntrusiveHeap.remove lt heap last = .ok (true, next) ∧
        Represents next front ∧ Idle next front := remove_last tree.represents tree.idle
    obtain ⟨next, result, represents, idle⟩ := removed
    have ordered := BinaryHeap.removeAt_ordered weak tree.ordered
      (show front.length < (front ++ [last]).length by simp)
    rw [BinaryHeap.removeAt_last] at ordered
    exact ⟨next, front, result, ⟨represents, ordered, idle⟩, represents.levelOrder_eq⟩
  · intro front last i node whole here
    rw [read] at whole
    subst whole
    have inside := (List.getElem?_eq_some_iff.mp here).1
    obtain ⟨next, result, after⟩ := tree.remove weak here
    refine ⟨next, _, result, after, after.represents.levelOrder_eq.trans ?_⟩
    rw [BinaryHeap.removeAt_front last inside, BinaryHeap.settle, List.length_set]

/-- Nodes ordered by their last digit: of the five in the heap, two have equal keys. -/
theorem simulates_ties : ∃ heap : Heap, levelOrder heap = [1, 3, 5, 14, 13] ∧
    Simulates (fun a b => decide (a % 10 < b % 10)) heap := by
  have weak : WeakOrder fun a b : Addr => decide (a % 10 < b % 10) := by
    constructor
    · intro a b less
      simp at less ⊢
      exact Nat.le_of_lt less
    · intro a b c first second
      simp at first second ⊢
      exact Nat.le_trans first second
  have empty : Tree (fun a b => decide (a % 10 < b % 10))
      { prev := fun _ => none, left := fun _ => none, right := fun _ => none } [] := by
    have formed : WellFormed (fun a b : Addr => decide (a % 10 < b % 10)) id ∅
        { prev := fun _ => none, left := fun _ => none, right := fun _ => none } [] :=
      wellFormed_empty id (fun _ => none) fun _ => none
    exact ⟨formed.tree, formed.ordered, formed.idle⟩
  obtain ⟨_, _, one⟩ := empty.push weak (List.not_mem_nil (a := 3))
  obtain ⟨_, _, two⟩ := one.push weak (show (13 : Addr) ∉ _ by decide)
  obtain ⟨_, _, three⟩ := two.push weak (show (5 : Addr) ∉ _ by decide)
  obtain ⟨_, _, four⟩ := three.push weak (show (14 : Addr) ∉ _ by decide)
  obtain ⟨heap, _, five⟩ := four.push weak (show (1 : Addr) ∉ _ by decide)
  exact ⟨heap, five.represents.levelOrder_eq.trans (by decide), simulates weak five⟩

end Simulation

end NgrCore.IntrusiveHeap
