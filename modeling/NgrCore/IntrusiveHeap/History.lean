import Mathlib.Data.Finset.Basic
import NgrCore.IntrusiveHeap.Push
import NgrCore.Library.Transition
import NgrCore.TimerTask

/-!
Owns the runs of an intrusive heap: any sequence of pushes, pops and removals, with
the keys of the nodes outside changing in between. After every operation the
pointers are the complete, ordered tree of exactly the nodes inside, and no
operation fails.
-/

namespace NgrCore.IntrusiveHeap

open NgrCore.Library
open NgrCore.Library.BinaryHeap (precedes Ordered WeakOrder removeAt)

section Order

variable {Key : Type} (less : Key → Key → Bool)

/-- `_Key` of the first node is less than that of the second. -/
def order (keys : Addr → Key) (first second : Addr) : Bool := less (keys first) (keys second)

variable {less}

theorem order_weakOrder (weak : WeakOrder less) (keys : Addr → Key) :
    WeakOrder (order less keys) :=
  ⟨weak.asymm, weak.trans⟩

theorem ordered_congr {keys changed : Addr → Key} {nodes : List Addr}
    (same : ∀ node ∈ nodes, changed node = keys node) (ordered : Ordered (order less keys) nodes) :
    Ordered (order less changed) nodes := by
  intro j positive
  rw [BinaryHeap.precedes_eq_false]
  intro a b atA atB
  have before := BinaryHeap.precedes_eq_false.mp (ordered j positive) a b atA atB
  rwa [order, same a (List.mem_of_getElem? atA), same b (List.mem_of_getElem? atB)]

end Order

/-- The heap, or the fault that ended its last operation; the keys; and, for the
proofs only, the nodes pushed and neither popped nor removed since. -/
structure State (Key : Type) where
  heap : Except Fault Heap
  keys : Addr → Key
  inside : Finset Addr := ∅

inductive Label (Key : Type)
  | push (node : Addr)
  | pop
  | remove (node : Addr)
  | rekey (node : Addr) (key : Key)

/-- The node that `_M_pop` removes: the root. -/
def popped (heap : Except Fault Heap) : Option Addr :=
  match heap with
  | .ok heap => heap.root
  | .error _ => none

variable {Key : Type} {less : Key → Key → Bool}

/-- One operation. A node is pushed only when it is not inside, and its key changes
only then; any node may be removed. -/
inductive Step (less : Key → Key → Bool) (s : State Key) : Label Key → State Key → Prop
  | push {node : Addr} (outside : node ∉ s.inside) :
      Step less s (.push node) { s with
        heap := s.heap.bind fun heap => push (order less s.keys) heap node
        inside := insert node s.inside }
  | pop :
      Step less s .pop { s with
        heap := s.heap.bind fun heap => pop (order less s.keys) heap
        inside := s.inside.filter fun node => some node ≠ popped s.heap }
  | remove {node : Addr} :
      Step less s (.remove node) { s with
        heap := s.heap.bind fun heap => (remove (order less s.keys) heap node).map (·.2)
        inside := s.inside.erase node }
  | rekey {node : Addr} {key : Key} (outside : node ∉ s.inside) :
      Step less s (.rekey node key) { s with keys := Function.update s.keys node key }

/-- An empty heap, and nodes whose `_Prev` is null. -/
def system (less : Key → Key → Bool) : System (State Key) (Label Key) where
  Init s := ∃ left right, s.heap = .ok { prev := fun _ => none, left := left, right := right } ∧
    s.inside = ∅
  Step := Step less

/-- The representation of a heap. -/
structure WellFormed (less : Key → Key → Bool) (keys : Addr → Key) (inside : Finset Addr)
    (heap : Heap) (nodes : List Addr) : Prop where
  tree : Represents heap nodes
  ordered : Ordered (order less keys) nodes
  members : ∀ node, node ∈ nodes ↔ node ∈ inside
  idle : Idle heap nodes

theorem wellFormed_empty (keys : Addr → Key) (left right : Links Addr) :
    WellFormed less keys ∅ { prev := fun _ => none, left := left, right := right } [] := by
  refine ⟨⟨⟨rfl, ?_, ?_, ?_⟩, rfl, ?_⟩, ?_, by simp, fun _ _ => rfl⟩
  · simp
  · simp
  · simp
  · intro j node here
    simp at here
  · intro j _
    simp [precedes]

section Steps

variable {keys : Addr → Key} {inside : Finset Addr} {heap : Heap} {nodes : List Addr}

theorem WellFormed.push (weak : WeakOrder less) (wf : WellFormed less keys inside heap nodes)
    {node : Addr} (outside : node ∉ inside) :
    ∃ next, push (order less keys) heap node = .ok next ∧
      WellFormed less keys (insert node inside) next
        (BinaryHeap.push (order less keys) nodes node) := by
  have fresh : node ∉ nodes := fun member => outside ((wf.members node).mp member)
  rcases push_spec (order_weakOrder weak keys) wf.tree wf.ordered wf.idle fresh with
    ⟨next, result, tree, idle⟩
  refine ⟨next, result, tree, BinaryHeap.push_ordered (order_weakOrder weak keys) wf.ordered node,
    ?_, idle⟩
  intro other
  rw [(BinaryHeap.push_perm nodes node).mem_iff, List.mem_cons, Finset.mem_insert, wf.members]

theorem WellFormed.pop (weak : WeakOrder less) (wf : WellFormed less keys inside heap nodes) :
    ∃ next, pop (order less keys) heap = .ok next ∧
      WellFormed less keys (inside.filter fun node => some node ≠ heap.root) next
        (removeAt (order less keys) nodes 0) := by
  rcases pop_spec wf.tree wf.idle with ⟨next, result, tree, idle⟩
  have root := wf.tree.shape.root
  by_cases empty : nodes.length = 0
  · rw [List.length_eq_zero_iff.mp empty] at wf tree idle root ⊢
    have none : ∀ node, node ∉ inside := by
      intro node member
      simpa using (wf.members node).mpr member
    exact ⟨next, result, tree, wf.ordered, by simp [removeAt, none], idle⟩
  · have within : 0 < nodes.length := by omega
    have perm : (nodes[0] :: removeAt (order less keys) nodes 0).Perm nodes :=
      BinaryHeap.removeAt_perm nodes within
    have nodup := perm.nodup_iff.mpr wf.tree.nodup
    refine ⟨next, result, tree,
      BinaryHeap.removeAt_ordered (order_weakOrder weak keys) wf.ordered within, ?_, idle⟩
    intro other
    have whole : other ∈ nodes ↔ other = nodes[0] ∨ other ∈ removeAt (order less keys) nodes 0 := by
      rw [← perm.mem_iff, List.mem_cons]
    have top : some other = heap.root ↔ other = nodes[0] := by
      rw [root, List.getElem?_eq_getElem within, Option.some_inj]
    rw [Finset.mem_filter, ← wf.members, whole, ne_eq, top]
    have apart : nodes[0] ∉ removeAt (order less keys) nodes 0 := (List.nodup_cons.mp nodup).1
    constructor
    · intro member
      exact ⟨.inr member, fun same => apart (same ▸ member)⟩
    · rintro ⟨same | member, other⟩
      · exact absurd same other
      · exact member

theorem WellFormed.remove (weak : WeakOrder less) (wf : WellFormed less keys inside heap nodes)
    (node : Addr) :
    ∃ next, remove (order less keys) heap node = .ok (decide (node ∈ inside), next) ∧
      WellFormed less keys (inside.erase node) next
        (BinaryHeap.remove (order less keys) nodes node).2 := by
  rcases remove_spec (order_weakOrder weak keys) wf.tree wf.ordered wf.idle node with
    ⟨next, result, tree, idle⟩
  have found : (BinaryHeap.remove (order less keys) nodes node).1 = decide (node ∈ inside) := by
    rw [BinaryHeap.remove]
    by_cases member : node ∈ nodes
    · simp [member, (wf.members node).mp member]
    · have absent : node ∉ inside := fun also => member ((wf.members node).mpr also)
      simp [member, absent]
  rw [found] at result
  refine ⟨next, result, tree, ?_, ?_, idle⟩
  · rw [BinaryHeap.remove]
    split
    · rename_i member
      exact BinaryHeap.removeAt_ordered (order_weakOrder weak keys) wf.ordered
        (List.idxOf_lt_length_iff.mpr member)
    · exact wf.ordered
  · intro other
    rw [(BinaryHeap.remove_perm nodes node).mem_iff, wf.tree.nodup.mem_erase_iff, Finset.mem_erase,
      wf.members]

end Steps

/-- Every operation of a run succeeds and leaves the complete, ordered tree of the
nodes inside. -/
def HeapInvariant (less : Key → Key → Bool) (s : State Key) : Prop :=
  ∃ heap nodes, s.heap = .ok heap ∧ WellFormed less s.keys s.inside heap nodes

theorem HeapInvariant.step (weak : WeakOrder less) {s next : State Key} {label : Label Key}
    (holds : HeapInvariant less s) (step : Step less s label next) : HeapInvariant less next := by
  rcases holds with ⟨heap, nodes, known, wf⟩
  cases step with
  | push outside =>
      rcases wf.push weak outside with ⟨after, result, wf'⟩
      exact ⟨after, _, by simp [known, Except.bind, result], wf'⟩
  | pop =>
      rcases wf.pop weak with ⟨after, result, wf'⟩
      refine ⟨after, BinaryHeap.removeAt (order less s.keys) nodes 0,
        by simp [known, Except.bind, result], ?_⟩
      simpa [popped, known] using wf'
  | @remove node =>
      rcases wf.remove weak node with ⟨after, result, wf'⟩
      exact ⟨after, _, by simp [known, Except.bind, result, Except.map], wf'⟩
  | @rekey node key outside =>
      refine ⟨heap, nodes, known, wf.tree, ordered_congr ?_ wf.ordered, wf.members, wf.idle⟩
      intro other member
      apply Function.update_of_ne
      rintro rfl
      exact outside ((wf.members _).mp member)

theorem heap_invariant (weak : WeakOrder less) {s : State Key}
    (reachable : (system less).Reachable s) : HeapInvariant less s := by
  apply reachable.invariant (HeapInvariant less)
  · rintro ⟨heap, keys, inside⟩ ⟨left, right, known, empty⟩
    subst empty
    exact ⟨_, [], known, wellFormed_empty keys left right⟩
  · intro state label next _ holds step
    exact holds.step weak step

theorem TimeSequence.lt_weakOrder : WeakOrder TimeSequence.lt := by
  constructor
  · intro a b less
    simp only [TimeSequence.lt, Bool.or_eq_true, decide_eq_true_eq, Bool.and_eq_true,
      Bool.not_eq_true', decide_eq_false_iff_not, Bool.or_eq_false_iff,
      Bool.and_eq_false_imp] at less ⊢
    omega
  · intro a b c first second
    simp only [TimeSequence.lt, Bool.not_eq_true', decide_eq_false_iff_not, Bool.or_eq_false_iff,
      Bool.and_eq_false_imp] at first second ⊢
    omega

section Timers

variable {timer : Addr → TimerTask} {heap : Heap} {nodes : List Addr} {op : Addr}

theorem earlier_weakOrder (timer : Addr → TimerTask) : WeakOrder (earlier timer) :=
  order_weakOrder TimeSequence.lt_weakOrder fun op => (timer op).key

/-- The pointers of the timer heap do what `timerPush` does to its timers. -/
theorem timerPush_spec (represents : Represents heap nodes)
    (ordered : Ordered (earlier timer) nodes) (idle : Idle heap nodes) (fresh : op ∉ nodes) :
    ∃ next, push (earlier timer) heap op = .ok next ∧
      Represents next (timerPush timer nodes op) ∧ Idle next (timerPush timer nodes op) :=
  push_spec (earlier_weakOrder timer) represents ordered idle fresh

/-- The pointers of the timer heap do what `timerRemove` does to its timers. -/
theorem timerRemove_spec (represents : Represents heap nodes)
    (ordered : Ordered (earlier timer) nodes) (idle : Idle heap nodes) (op : Addr) :
    ∃ next, remove (earlier timer) heap op = .ok ((timerRemove timer nodes op).1, next) ∧
      Represents next (timerRemove timer nodes op).2 ∧ Idle next (timerRemove timer nodes op).2 :=
  remove_spec (earlier_weakOrder timer) represents ordered idle op

end Timers

/-- Two timers are pushed, the earlier one is popped, and a third one that has
never been inside is removed. -/
theorem heap_invariant_timers :
    ∃ s : State TimeSequence, s.inside = {5} ∧ HeapInvariant TimeSequence.lt s := by
  have start : (system TimeSequence.lt).Reachable
      { heap := .ok { prev := fun _ => none, left := fun _ => none, right := fun _ => none }
        keys := fun node => { deadline := node } } := .init ⟨_, _, rfl, rfl⟩
  have first := start.step (.push (show 5 ∉ ∅ by decide))
  have second := first.step (.push (show 3 ∉ insert 5 ∅ by decide))
  have third := second.step .pop
  have fourth := third.step (show Step _ _ (.remove 7) _ from .remove)
  exact ⟨_, by decide +kernel, heap_invariant TimeSequence.lt_weakOrder fourth⟩

end NgrCore.IntrusiveHeap
