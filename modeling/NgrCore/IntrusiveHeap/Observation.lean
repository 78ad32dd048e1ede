import NgrCore.IntrusiveHeap.History

/-!
Owns what a heap shows to its users: the root, the order in which its nodes come out,
and the answers of `_M_remove`. While the keys inside are distinct it behaves like the
sorted set of the nodes inside.
-/

namespace NgrCore.IntrusiveHeap

open NgrCore.Library
open NgrCore.Library.BinaryHeap (WeakOrder)

section Drain

variable {Key : Type} (less : Key → Key → Bool) (keys : Addr → Key)

/-- `_M_pop` until the heap is empty: the roots in the order they leave, and the heap
at the end. -/
def drain : Nat → Heap → Except Fault (List Addr × Heap)
  | 0, heap => .ok ([], heap)
  | fuel + 1, heap =>
      match heap.root with
      | none => .ok ([], heap)
      | some top => do
          let heap ← pop (order less keys) heap
          let (rest, heap) ← drain fuel heap
          pure (top :: rest, heap)

/-- The nodes come out in strictly increasing order, and they are those inside. -/
structure Drains (inside : Finset Addr) (heap : Heap) (nodes : List Addr) : Prop where
  drained : ∃ after, drain less keys heap.size heap = .ok (nodes, after) ∧
    after.root = none
  increasing : nodes.Pairwise fun first second => less (keys first) (keys second) = true
  members : ∀ node, node ∈ nodes ↔ node ∈ inside

structure Observes (inside : Finset Addr) (heap : Heap) : Prop where
  empty : heap.root = none ↔ inside = ∅
  least : ∀ top, heap.root = some top → top ∈ inside ∧
    ∀ other ∈ inside, other ≠ top → less (keys top) (keys other) = true
  drains : ∃ nodes, Drains less keys inside heap nodes ∧
    ∀ node ∈ inside, ∃ after, remove (order less keys) heap node = .ok (true, after) ∧
      Drains less keys (inside.erase node) after (nodes.erase node)
  refused : ∀ node ∉ inside, remove (order less keys) heap node = .ok (false, heap)

end Drain

section Observations

variable {Key : Type} {less : Key → Key → Bool} {keys : Addr → Key} {inside : Finset Addr}
  {heap : Heap} {nodes : List Addr}

theorem WellFormed.root_mem (wf : WellFormed less keys inside heap nodes) {top : Addr}
    (root : heap.root = some top) : top ∈ inside := by
  have first : nodes[0]? = some top := wf.tree.shape.root.symm.trans root
  exact (wf.members top).mp (List.mem_of_getElem? first)

theorem WellFormed.root_none (wf : WellFormed less keys inside heap nodes) :
    heap.root = none ↔ inside = ∅ := by
  rw [wf.tree.shape.root, List.getElem?_eq_none_iff, Nat.le_zero, List.length_eq_zero_iff,
    Finset.eq_empty_iff_forall_notMem, List.eq_nil_iff_forall_not_mem]
  exact forall_congr' fun node => not_congr (wf.members node)

/-- The root is strictly less than every other node. -/
theorem WellFormed.root_least (weak : WeakOrder less)
    (total : ∀ a b, a ≠ b → less a b = true ∨ less b a = true)
    (wf : WellFormed less keys inside heap nodes) (distinct : Set.InjOn keys inside)
    {top other : Addr} (root : heap.root = some top) (member : other ∈ inside)
    (apart : other ≠ top) : less (keys top) (keys other) = true := by
  have first : nodes[0]? = some top := wf.tree.shape.root.symm.trans root
  obtain ⟨j, here⟩ := List.getElem?_of_mem ((wf.members other).mpr member)
  have notLess : less (keys other) (keys top) = false :=
    wf.ordered.root_le (order_weakOrder weak keys) first j here
  have differ : keys top ≠ keys other := fun same =>
    apart (distinct member (wf.root_mem root) same.symm)
  rcases total _ _ differ with before | after
  · exact before
  · exact absurd after (by simp [notLess])

theorem WellFormed.drain (weak : WeakOrder less)
    (total : ∀ a b, a ≠ b → less a b = true ∨ less b a = true) (fuel : Nat)
    (wf : WellFormed less keys inside heap nodes) (distinct : Set.InjOn keys inside)
    (enough : nodes.length ≤ fuel) :
    ∃ listed after, drain less keys fuel heap = .ok (listed, after) ∧ after.root = none ∧
      listed.Pairwise (fun first second => less (keys first) (keys second) = true) ∧
      ∀ node, node ∈ listed ↔ node ∈ inside := by
  induction fuel generalizing heap inside nodes with
  | zero =>
      have none : nodes = [] := List.eq_nil_of_length_eq_zero (Nat.le_zero.mp enough)
      refine ⟨[], heap, rfl, ?_, .nil, fun node => ?_⟩
      · rw [wf.tree.shape.root, none]
        rfl
      · rw [← wf.members, none]
  | succ fuel inductionHypothesis =>
      cases root : heap.root with
      | none =>
          have empty := wf.root_none.mp root
          refine ⟨[], heap, by rw [IntrusiveHeap.drain, root], root, .nil, fun node => ?_⟩
          simp [empty]
      | some top =>
          obtain ⟨next, popped, rest⟩ := wf.pop weak
          have fewer : (BinaryHeap.removeAt (order less keys) nodes 0).length ≤ fuel := by
            have inner : 0 < nodes.length := by
              have first : nodes[0]? = some top := wf.tree.shape.root.symm.trans root
              exact (List.getElem?_eq_some_iff.mp first).1
            have perm : (nodes[0] :: BinaryHeap.removeAt (order less keys) nodes 0).Perm nodes :=
              BinaryHeap.removeAt_perm nodes inner
            have same := perm.length_eq
            rw [List.length_cons] at same
            omega
          have kept : ∀ node, node ∈ inside.filter (fun node => some node ≠ heap.root) ↔
              node ∈ inside ∧ node ≠ top := by
            intro node
            rw [Finset.mem_filter, root, ne_eq, Option.some_inj]
          have narrower : Set.InjOn keys (inside.filter fun node => some node ≠ heap.root) :=
            distinct.mono fun node member => ((kept node).mp member).1
          obtain ⟨listed, after, drained, empty, increasing, members⟩ :=
            inductionHypothesis rest narrower fewer
          refine ⟨top :: listed, after, ?_, empty, ?_, fun node => ?_⟩
          · simp [IntrusiveHeap.drain, root, popped, drained, bind, Except.bind, pure,
              Except.pure]
          · refine List.pairwise_cons.mpr ⟨fun other member => ?_, increasing⟩
            have left := (kept other).mp ((members other).mp member)
            exact wf.root_least weak total distinct root left.1 left.2
          · rw [List.mem_cons, members, kept]
            by_cases same : node = top
            · simp [same, wf.root_mem root]
            · simp [same]

theorem WellFormed.drains (weak : WeakOrder less)
    (total : ∀ a b, a ≠ b → less a b = true ∨ less b a = true)
    (wf : WellFormed less keys inside heap nodes) (distinct : Set.InjOn keys inside) :
    ∃ listed, Drains less keys inside heap listed := by
  obtain ⟨listed, after, drained, empty, increasing, members⟩ :=
    wf.drain weak total heap.size distinct (Nat.le_of_eq wf.tree.size.symm)
  exact ⟨listed, ⟨after, drained, empty⟩, increasing, members⟩

theorem increasing_ext (weak : WeakOrder less) {first second : List Addr}
    (left : first.Pairwise fun a b => less (keys a) (keys b) = true)
    (right : second.Pairwise fun a b => less (keys a) (keys b) = true)
    (same : ∀ node, node ∈ first ↔ node ∈ second) : first = second := by
  have irrefl : ∀ a b : Addr, less (keys a) (keys b) = true → a ≠ b := by
    rintro a _ before rfl
    exact absurd before (by simp [weak.asymm before])
  have perm : first.Perm second :=
    (List.perm_ext_iff_of_nodup (left.imp (irrefl _ _)) (right.imp (irrefl _ _))).mpr same
  refine perm.eq_of_pairwise (fun a b _ _ before after => ?_) left right
  exact absurd after (by simp [weak.asymm before])

/-- A removal takes one node out of the order. -/
theorem WellFormed.removes (weak : WeakOrder less)
    (total : ∀ a b, a ≠ b → less a b = true ∨ less b a = true)
    (wf : WellFormed less keys inside heap nodes) (distinct : Set.InjOn keys inside)
    {listed : List Addr} (drains : Drains less keys inside heap listed) {node : Addr}
    (member : node ∈ inside) :
    ∃ after, IntrusiveHeap.remove (order less keys) heap node = .ok (true, after) ∧
      Drains less keys (inside.erase node) after (listed.erase node) := by
  obtain ⟨after, result, rest⟩ := wf.remove weak node
  rw [decide_eq_true member] at result
  have narrower : Set.InjOn keys (inside.erase node) :=
    distinct.mono fun other kept => Finset.mem_of_mem_erase kept
  obtain ⟨others, outcome⟩ := rest.drains weak total narrower
  have nodup : listed.Nodup := drains.increasing.imp fun {a b} before => by
    rintro rfl
    exact absurd before (by simp [weak.asymm before])
  have same : others = listed.erase node := by
    refine increasing_ext weak outcome.increasing
      (drains.increasing.sublist List.erase_sublist) fun other => ?_
    rw [outcome.members, nodup.mem_erase_iff, Finset.mem_erase, drains.members]
  exact ⟨after, result, same ▸ outcome⟩

/-- A node outside has no parent and is not the root. -/
theorem WellFormed.refuses (wf : WellFormed less keys inside heap nodes) {node : Addr}
    (outside : node ∉ inside) :
    IntrusiveHeap.remove (order less keys) heap node = .ok (false, heap) := by
  have absent : node ∉ nodes := fun member => outside ((wf.members node).mp member)
  have notRoot : some node ≠ heap.root := fun root => outside (wf.root_mem root.symm)
  unfold IntrusiveHeap.remove
  exact if_pos ⟨wf.idle node absent, notRoot⟩

theorem WellFormed.observes (weak : WeakOrder less)
    (total : ∀ a b, a ≠ b → less a b = true ∨ less b a = true)
    (wf : WellFormed less keys inside heap nodes) (distinct : Set.InjOn keys inside) :
    Observes less keys inside heap := by
  obtain ⟨listed, drains⟩ := wf.drains weak total distinct
  exact
    { empty := wf.root_none
      least := fun top root => ⟨wf.root_mem root, fun other member apart =>
        wf.root_least weak total distinct root member apart⟩
      drains := ⟨listed, drains, fun node member => wf.removes weak total distinct drains member⟩
      refused := fun node outside => wf.refuses outside }

end Observations

section Timers

theorem TimeSequence.lt_total (a b : TimeSequence) (differ : a ≠ b) :
    a.lt b = true ∨ b.lt a = true := by
  rcases a with ⟨deadline, seq⟩
  rcases b with ⟨other, later⟩
  simp only [ne_eq, TimeSequence.mk.injEq, not_and] at differ
  simp only [TimeSequence.lt, Bool.or_eq_true, decide_eq_true_eq, Bool.and_eq_true,
    Bool.not_eq_true', decide_eq_false_iff_not]
  omega

/-- In every run, whenever the keys inside are distinct. -/
theorem timer_queue_observes {s : State TimeSequence}
    (reachable : (system TimeSequence.lt).Reachable s) (distinct : Set.InjOn s.keys s.inside) :
    ∃ heap, s.heap = .ok heap ∧ Observes TimeSequence.lt s.keys s.inside heap := by
  obtain ⟨heap, nodes, known, wf⟩ := heap_invariant TimeSequence.lt_weakOrder reachable
  exact ⟨heap, known, wf.observes TimeSequence.lt_weakOrder TimeSequence.lt_total distinct⟩

/-- Two timers with the same deadline; the one that was created later is removed. -/
theorem timer_queue_observes_tie : ∃ s : State TimeSequence, s.inside = {5} ∧
    ∃ heap, s.heap = .ok heap ∧ Observes TimeSequence.lt s.keys s.inside heap := by
  have start : (system TimeSequence.lt).Reachable
      { heap := .ok { prev := fun _ => none, left := fun _ => none, right := fun _ => none }
        keys := fun node => { seq := node } } := .init ⟨_, _, rfl, rfl⟩
  have first := start.step (.push (show 7 ∉ ∅ by decide))
  have second := first.step (.push (show 5 ∉ insert 7 ∅ by decide))
  have third := second.step (show Step _ _ (.remove 7) _ from .remove)
  refine ⟨_, by decide +kernel, timer_queue_observes third ?_⟩
  intro a _ b _ same
  exact congrArg TimeSequence.seq same

end Timers

end NgrCore.IntrusiveHeap
