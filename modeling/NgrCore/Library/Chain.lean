import Mathlib.Logic.Function.Basic
import Mathlib.Data.List.Nodup

/-!
Owns null-terminated chains: the lists read by following one link field of a
memory from a head pointer. A memory is a function from nodes to the successor
they store; the null pointer is `none`.
-/

namespace NgrCore.Library

variable {Node : Type*}

/-- The link field of every node. -/
abbrev Links (Node : Type*) := Node → Option Node

/-- Following `next` from `head` visits exactly `nodes` and then the null
pointer. -/
def Chain (next : Links Node) : Option Node → List Node → Prop
  | head, [] => head = none
  | head, node :: rest => head = some node ∧ Chain next (next node) rest

namespace Chain

variable {next : Links Node} {head : Option Node} {nodes : List Node}

@[simp] theorem nil_iff : Chain next head [] ↔ head = none := Iff.rfl

theorem head_eq (chain : Chain next head nodes) : head = nodes.head? := by
  cases nodes with
  | nil => exact chain
  | cons node rest => exact chain.1

theorem of_none (chain : Chain next none nodes) : nodes = [] := by
  cases nodes with
  | nil => rfl
  | cons node rest => exact absurd chain.1 (by simp)

/-- A head pointer determines the list behind it. -/
theorem unique {other : List Node} (chain : Chain next head nodes)
    (again : Chain next head other) : nodes = other := by
  induction nodes generalizing head other with
  | nil =>
      rw [nil_iff] at chain
      subst head
      exact again.of_none.symm
  | cons node rest inductionHypothesis =>
      cases other with
      | nil =>
          rw [nil_iff] at again
          exact absurd (chain.1.symm.trans again) (by simp)
      | cons first others =>
          have same : node = first := Option.some.inj (chain.1.symm.trans again.1)
          subst first
          rw [inductionHypothesis chain.2 again.2]

/-- Two memories that agree on the nodes of a chain read the same chain. -/
theorem congr {other : Links Node} (chain : Chain next head nodes)
    (agree : ∀ node ∈ nodes, other node = next node) : Chain other head nodes := by
  induction nodes generalizing head with
  | nil => exact chain
  | cons node rest inductionHypothesis =>
      refine ⟨chain.1, ?_⟩
      rw [agree node (by simp)]
      exact inductionHypothesis chain.2 fun node member => agree node (by simp [member])

/-- Writing the link of a node outside a chain does not change the chain. -/
theorem update [DecidableEq Node] {node : Node} (value : Option Node)
    (chain : Chain next head nodes) (outside : node ∉ nodes) :
    Chain (Function.update next node value) head nodes :=
  chain.congr fun _ member =>
    Function.update_of_ne (ne_of_mem_of_not_mem member outside) _ _

/-- Writing the last link of a chain continues it with another chain. -/
theorem append [DecidableEq Node] {others : List Node} {tail : Node} {other : Option Node}
    (chain : Chain next head nodes) (last : nodes.getLast? = some tail)
    (continued : Chain next other others) (disjoint : ∀ node ∈ nodes, node ∉ others)
    (fresh : nodes.Nodup) : Chain (Function.update next tail other) head (nodes ++ others) := by
  induction nodes generalizing head with
  | nil => exact absurd last (by simp)
  | cons node rest inductionHypothesis =>
      refine ⟨chain.1, ?_⟩
      cases rest with
      | nil =>
          have only : node = tail := by simpa using last
          subst only
          rw [Function.update_self]
          exact continued.update other (disjoint node (by simp))
      | cons second nodes =>
          rw [List.getLast?_cons_cons] at last
          have apart : node ≠ tail := by
            rintro rfl
            exact (List.nodup_cons.mp fresh).1 (List.mem_of_getLast? last)
          rw [Function.update_of_ne apart]
          exact inductionHypothesis chain.2 last
            (fun node member => disjoint node (List.mem_cons_of_mem _ member))
            (List.nodup_cons.mp fresh).2

theorem of_links (first : head = nodes[0]?)
    (links : ∀ i node, nodes[i]? = some node → next node = nodes[i + 1]?) :
    Chain next head nodes := by
  induction nodes generalizing head with
  | nil => exact first
  | cons node rest inductionHypothesis =>
      refine ⟨first, inductionHypothesis (links 0 node rfl) fun i other found => ?_⟩
      exact links (i + 1) other found

theorem append_drop {front back : List Node} (chain : Chain next head (front ++ back)) :
    ∃ middle, Chain next middle back := by
  induction front generalizing head with
  | nil => exact ⟨head, chain⟩
  | cons node rest inductionHypothesis => exact inductionHypothesis chain.2

/-- A null-terminated chain visits no node twice. -/
theorem nodup (chain : Chain next head nodes) : nodes.Nodup := by
  induction nodes generalizing head with
  | nil => exact List.nodup_nil
  | cons node rest inductionHypothesis =>
      refine List.nodup_cons.mpr ⟨fun member => ?_, inductionHypothesis chain.2⟩
      obtain ⟨front, back, split⟩ := List.append_of_mem member
      have inner : Chain next (next node) (front ++ node :: back) := split ▸ chain.2
      obtain ⟨middle, tail⟩ := inner.append_drop
      have again : Chain next (next node) back := tail.2
      have short := congrArg List.length (inner.unique again)
      simp at short
      omega

theorem suffix {front back : List Node} (chain : Chain next head (front ++ back)) :
    Chain next back.head? back := by
  obtain ⟨middle, rest⟩ := chain.append_drop
  rwa [rest.head_eq] at rest

theorem next_last {front back : List Node} {last : Node} (chain : Chain next head (front ++ back))
    (ends : front.getLast? = some last) : next last = back.head? := by
  induction front generalizing head with
  | nil => exact absurd ends (by simp)
  | cons node rest inductionHypothesis =>
      cases rest with
      | nil =>
          have only : node = last := by simpa using ends
          rw [← only]
          exact Chain.head_eq chain.2
      | cons second others =>
          rw [List.getLast?_cons_cons] at ends
          exact inductionHypothesis chain.2 ends

/-- Links that agree on the front of a chain up to its last node, and lead from there into
another chain. -/
theorem redirect {links : Links Node} {front back others : List Node} {last : Node}
    (chain : Chain next head (front ++ back)) (ends : front.getLast? = some last)
    (continued : Chain links (links last) others)
    (agree : ∀ node ∈ front, node ≠ last → links node = next node) :
    Chain links head (front ++ others) := by
  have distinct := chain.nodup
  induction front generalizing head with
  | nil => exact absurd ends (by simp)
  | cons node rest inductionHypothesis =>
      refine ⟨chain.1, ?_⟩
      cases rest with
      | nil =>
          have only : node = last := by simpa using ends
          rw [only]
          exact continued
      | cons second others =>
          rw [List.getLast?_cons_cons] at ends
          have apart : node ≠ last := by
            rintro rfl
            exact (List.nodup_cons.mp distinct).1
              (List.mem_append_left back (List.mem_of_getLast? ends))
          rw [agree node (by simp) apart]
          exact inductionHypothesis chain.2 ends
            (fun other member => agree other (List.mem_cons_of_mem node member))
            (List.nodup_cons.mp distinct).2

end Chain

/-- Following `next` from `head` visits exactly `nodes` and then comes to `last`. -/
def Segment (next : Links Node) (last : Option Node) : Option Node → List Node → Prop
  | head, [] => head = last
  | head, node :: rest => head = some node ∧ Segment next last (next node) rest

namespace Segment

variable {next : Links Node} {last head : Option Node} {nodes : List Node}

theorem chain_iff : Segment next none head nodes ↔ Chain next head nodes := by
  induction nodes generalizing head with
  | nil => exact Iff.rfl
  | cons node rest inductionHypothesis => exact and_congr_right fun _ => inductionHypothesis

theorem chain {rest : List Node} (segment : Segment next last head nodes)
    (continued : Chain next last rest) : Chain next head (nodes ++ rest) := by
  induction nodes generalizing head with
  | nil =>
      have same : head = last := segment
      rw [same]
      exact continued
  | cons node others inductionHypothesis => exact ⟨segment.1, inductionHypothesis segment.2⟩

theorem congr {other : Links Node} (segment : Segment next last head nodes)
    (agree : ∀ node ∈ nodes, other node = next node) : Segment other last head nodes := by
  induction nodes generalizing head with
  | nil => exact segment
  | cons node rest inductionHypothesis =>
      refine ⟨segment.1, ?_⟩
      rw [agree node (by simp)]
      exact inductionHypothesis segment.2 fun node member => agree node (by simp [member])

/-- Writing the link of its last node leads a segment elsewhere. -/
theorem redirect [DecidableEq Node] {tail : Node} {other : Option Node}
    (segment : Segment next last head nodes) (ends : nodes.getLast? = some tail)
    (distinct : nodes.Nodup) : Segment (Function.update next tail other) other head nodes := by
  induction nodes generalizing head with
  | nil => exact absurd ends (by simp)
  | cons node rest inductionHypothesis =>
      refine ⟨segment.1, ?_⟩
      cases rest with
      | nil =>
          have only : node = tail := by simpa using ends
          rw [only, Function.update_self]
          rfl
      | cons second others =>
          rw [List.getLast?_cons_cons] at ends
          have apart : node ≠ tail := by
            intro same
            subst same
            exact (List.nodup_cons.mp distinct).1 (List.mem_of_getLast? ends)
          rw [Function.update_of_ne apart]
          exact inductionHypothesis segment.2 ends (List.nodup_cons.mp distinct).2

end Segment

end NgrCore.Library
