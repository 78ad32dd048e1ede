import Mathlib.Data.List.Nodup
import NgrCore.Library.Chain

/-!
Owns linked lists whose nodes point back to the slot that leads to them: the head
pointer of the list or the link field of the node before. A node is taken out through
its own back pointer, without a walk from the head.
-/

namespace NgrCore.Library

/-- A place that holds a pointer to a node. -/
inductive Slot (Node : Type*)
  | head
  | next (node : Node)
deriving Repr, DecidableEq

/-- A head pointer and the two fields of every node. -/
structure SlotList (Node : Type*) where
  head : Option Node := none
  next : Links Node := fun _ => none
  prev : Node → Option (Slot Node) := fun _ => none

namespace SlotList

variable {Node : Type*}

def read (list : SlotList Node) : Slot Node → Option Node
  | .head => list.head
  | .next node => list.next node

/-- From `slot` the list visits exactly `nodes`, and each points back to the slot that
leads to it. -/
def Linked (list : SlotList Node) : Slot Node → List Node → Prop
  | slot, [] => list.read slot = none
  | slot, node :: rest =>
      list.read slot = some node ∧ list.prev node = some slot ∧
        list.Linked (.next node) rest

/-- The list is well formed and has exactly `nodes`. -/
def Holds (list : SlotList Node) (nodes : List Node) : Prop :=
  list.Linked .head nodes

section Changes

variable [DecidableEq Node] (list : SlotList Node)

def write : Slot Node → Option Node → SlotList Node
  | .head, value => { list with head := value }
  | .next node, value => { list with next := Function.update list.next node value }

/-- A store to the back pointer of the node that a pointer leads to, if there is one. -/
def setPrev (slot : Slot Node) : Option Node → SlotList Node
  | none => list
  | some node => { list with prev := Function.update list.prev node (some slot) }

/-- A node in front of the others. -/
def pushFront (node : Node) : SlotList Node :=
  let linked : SlotList Node :=
    { list with
      next := Function.update list.next node list.head
      prev := Function.update list.prev node (some .head) }
  { linked.setPrev (.next node) list.head with head := some node }

/-- The first node taken off; its own back pointer becomes null. -/
def popFront (node : Node) : SlotList Node :=
  let cleared : SlotList Node :=
    { list with
      prev := Function.update list.prev node none
      head := list.next node }
  cleared.setPrev .head cleared.head

/-- A node taken out through the slot that leads to it. -/
def unlink (node : Node) (slot : Slot Node) : SlotList Node :=
  (list.write slot (list.next node)).setPrev slot ((list.write slot (list.next node)).next node)

end Changes

theorem holds_empty : ({} : SlotList Node).Holds [] := rfl

section Facts

variable {list : SlotList Node} {slot : Slot Node} {nodes : List Node}

theorem Linked.chain (linked : list.Linked slot nodes) :
    Chain list.next (list.read slot) nodes := by
  induction nodes generalizing slot with
  | nil => exact linked
  | cons node rest inductionHypothesis => exact ⟨linked.1, inductionHypothesis linked.2.2⟩

theorem Linked.nodup (linked : list.Linked slot nodes) : nodes.Nodup :=
  linked.chain.nodup

theorem Linked.tail_ne {node : Node} (linked : list.Linked slot nodes)
    (member : node ∈ nodes.tail) : nodes.head? ≠ some node := by
  cases nodes with
  | nil => exact absurd member (by simp)
  | cons first rest =>
      intro same
      obtain rfl : first = node := Option.some.inj same
      exact (List.nodup_cons.mp linked.nodup).1 member

/-- Two lists that agree on a slot and on the fields of the nodes behind it. -/
theorem Linked.congr {other : SlotList Node} {start : Slot Node}
    (linked : list.Linked slot nodes) (read : other.read start = list.read slot)
    (prev : ∀ node ∈ nodes.head?, other.prev node = some start)
    (agree : ∀ node ∈ nodes, other.next node = list.next node)
    (back : ∀ node ∈ nodes.tail, other.prev node = list.prev node) :
    other.Linked start nodes := by
  induction nodes generalizing slot start with
  | nil => exact read.trans linked
  | cons node rest inductionHypothesis =>
      obtain ⟨reads, _, linked⟩ := linked
      refine ⟨read.trans reads, prev node rfl, inductionHypothesis linked ?_ ?_ ?_ ?_⟩
      · exact agree node List.mem_cons_self
      · intro first member
        have within : first ∈ rest := List.mem_of_mem_head? member
        rw [back first within]
        cases rest with
        | nil => exact absurd within (by simp)
        | cons second others =>
            obtain rfl : second = first := by simpa using member
            exact linked.2.1
      · exact fun other member => agree other (List.mem_cons_of_mem _ member)
      · exact fun other member => back other (List.mem_of_mem_tail member)

theorem Linked.drop {front back : List Node} {node : Node}
    (linked : list.Linked slot (front ++ node :: back)) :
    list.Linked (front.getLast?.elim slot Slot.next) (node :: back) := by
  induction front generalizing slot with
  | nil => exact linked
  | cons first rest inductionHypothesis =>
      have behind := inductionHypothesis linked.2.2
      cases rest with
      | nil => exact behind
      | cons second others =>
          rw [List.getLast?_cons_cons]
          have last := List.getLast?_cons (a := second) (l := others)
          rw [last] at behind ⊢
          exact behind

theorem Linked.next_eq {front back : List Node} {node : Node}
    (linked : list.Linked slot (front ++ node :: back)) : list.next node = back.head? :=
  linked.drop.2.2.chain.head_eq

theorem Linked.prev_cases {node : Node} {back : Slot Node} (linked : list.Linked slot nodes)
    (member : node ∈ nodes) (prev : list.prev node = some back) :
    back = slot ∨ ∃ before ∈ nodes, back = .next before := by
  induction nodes generalizing slot with
  | nil => exact absurd member List.not_mem_nil
  | cons first rest inductionHypothesis =>
      rcases List.mem_cons.mp member with same | later
      · subst same
        exact .inl (Option.some.inj (prev.symm.trans linked.2.1))
      · rcases inductionHypothesis linked.2.2 later with here | ⟨before, inside, same⟩
        · exact .inr ⟨first, List.mem_cons_self, here⟩
        · exact .inr ⟨before, List.mem_cons_of_mem _ inside, same⟩

end Facts

section Operations

variable [DecidableEq Node] {list : SlotList Node} {slot : Slot Node} {nodes : List Node}

theorem setPrev_read (value : Option Node) (start : Slot Node) :
    (list.setPrev slot value).read start = list.read start := by
  cases value <;> rfl

theorem setPrev_next (value : Option Node) (node : Node) :
    (list.setPrev slot value).next node = list.next node := by
  cases value <;> rfl

theorem setPrev_prev_of_ne {value : Option Node} {node : Node} (other : value ≠ some node) :
    (list.setPrev slot value).prev node = list.prev node := by
  cases value with
  | none => rfl
  | some _ => exact Function.update_of_ne (fun same => other (congrArg some same.symm)) _ _

theorem setPrev_prev_self (node : Node) :
    (list.setPrev slot (some node)).prev node = some slot :=
  Function.update_self _ _ _

theorem write_read_self (value : Option Node) : (list.write slot value).read slot = value := by
  cases slot with
  | head => rfl
  | next node => exact Function.update_self _ _ _

theorem write_read_of_ne {value : Option Node} {start : Slot Node} (other : start ≠ slot) :
    (list.write slot value).read start = list.read start := by
  cases slot with
  | head =>
      cases start with
      | head => exact absurd rfl other
      | next node => rfl
  | next node =>
      cases start with
      | head => rfl
      | next start =>
          exact Function.update_of_ne (fun same => other (congrArg Slot.next same)) _ _

theorem write_next_of_ne {value : Option Node} {node : Node} (other : slot ≠ .next node) :
    (list.write slot value).next node = list.next node := by
  have kept : (list.write slot value).read (.next node) = list.read (.next node) :=
    write_read_of_ne other.symm
  exact kept

theorem write_prev (value : Option Node) (node : Node) :
    (list.write slot value).prev node = list.prev node := by
  cases slot <;> rfl

theorem Holds.pushFront (holds : list.Holds nodes) {node : Node} (fresh : node ∉ nodes) :
    (list.pushFront node).Holds (node :: nodes) := by
  have head : list.head = nodes.head? := holds.chain.head_eq
  have other : list.head ≠ some node := by
    intro same
    exact fresh (List.mem_of_mem_head? (head.symm.trans same))
  refine ⟨rfl, ?_, holds.congr ?_ ?_ ?_ ?_⟩
  · exact (setPrev_prev_of_ne other).trans (Function.update_self _ _ _)
  · exact (setPrev_next _ _).trans (Function.update_self _ _ _)
  · intro first member
    have pointer : list.head = some first := head.trans member
    change (SlotList.setPrev _ _ list.head).prev first = _
    rw [pointer]
    exact setPrev_prev_self first
  · intro later member
    have apart : later ≠ node := fun same => fresh (same ▸ member)
    exact (setPrev_next _ _).trans (Function.update_of_ne apart _ _)
  · intro later member
    have apart : later ≠ node := fun same => fresh (same ▸ List.mem_of_mem_tail member)
    have second : list.head ≠ some later := head ▸ Linked.tail_ne holds member
    exact (setPrev_prev_of_ne second).trans (Function.update_of_ne apart _ _)

theorem Holds.popFront {node : Node} (holds : list.Holds (node :: nodes)) :
    (list.popFront node).Holds nodes := by
  have fresh := (List.nodup_cons.mp holds.nodup).1
  have behind : list.Linked (.next node) nodes := holds.2.2
  have next : list.next node = nodes.head? := behind.chain.head_eq
  refine behind.congr ?_ ?_ ?_ ?_
  · exact setPrev_read _ _
  · intro first member
    have pointer : list.next node = some first := next.trans member
    change (SlotList.setPrev _ _ (list.next node)).prev first = _
    rw [pointer]
    exact setPrev_prev_self first
  · intro later member
    exact setPrev_next _ _
  · intro later member
    have apart : later ≠ node := fun same => fresh (same ▸ List.mem_of_mem_tail member)
    have second : list.next node ≠ some later := next ▸ behind.tail_ne member
    exact (setPrev_prev_of_ne second).trans (Function.update_of_ne apart _ _)

theorem Holds.pushFront_prev (holds : list.Holds nodes) {node other : Node}
    (apart : other ≠ node) (outside : other ∉ nodes) :
    (list.pushFront node).prev other = list.prev other := by
  have head : list.head = nodes.head? := holds.chain.head_eq
  have first : list.head ≠ some other := by
    intro same
    exact outside (List.mem_of_mem_head? (head.symm.trans same))
  exact (setPrev_prev_of_ne first).trans (Function.update_of_ne apart _ _)

theorem Holds.popFront_prev_self {node : Node} (holds : list.Holds (node :: nodes)) :
    (list.popFront node).prev node = none := by
  have fresh := (List.nodup_cons.mp holds.nodup).1
  have next : list.next node = nodes.head? := holds.2.2.chain.head_eq
  have first : list.next node ≠ some node := by
    intro same
    exact fresh (List.mem_of_mem_head? (next.symm.trans same))
  exact (setPrev_prev_of_ne first).trans (Function.update_self _ _ _)

theorem Holds.popFront_prev {node other : Node} (holds : list.Holds (node :: nodes))
    (outside : other ∉ node :: nodes) :
    (list.popFront node).prev other = list.prev other := by
  have next : list.next node = nodes.head? := holds.2.2.chain.head_eq
  have first : list.next node ≠ some other := by
    intro same
    exact outside (List.mem_cons_of_mem _ (List.mem_of_mem_head? (next.symm.trans same)))
  have apart : other ≠ node := fun same => outside (same ▸ List.mem_cons_self)
  exact (setPrev_prev_of_ne first).trans (Function.update_of_ne apart _ _)

theorem unlink_eq {node : Node} (apart : slot ≠ .next node) :
    list.unlink node slot = (list.write slot (list.next node)).setPrev slot (list.next node) := by
  unfold SlotList.unlink
  rw [write_next_of_ne apart]

/-- A node taken out through its back pointer, which is the slot before the nodes or the
link field of a node in front of it. -/
theorem Linked.unlink {front back : List Node} {node : Node}
    (linked : list.Linked slot (front ++ node :: back))
    (outside : ∀ before, slot = .next before → before ∉ front ++ node :: back) :
    ∃ own, list.prev node = some own ∧ (own = slot ∨ ∃ before ∈ front, own = .next before) ∧
      (list.unlink node own).Linked slot (front ++ back) := by
  induction front generalizing slot with
  | nil =>
      obtain ⟨_, prev, behind⟩ := linked
      have apart : slot ≠ .next node := fun same => outside node same List.mem_cons_self
      have next : list.next node = back.head? := behind.chain.head_eq
      refine ⟨slot, prev, .inl rfl, ?_⟩
      rw [unlink_eq apart]
      refine behind.congr ?_ ?_ ?_ ?_
      · exact (setPrev_read _ _).trans (write_read_self _)
      · intro first member
        rw [show list.next node = some first from next.trans member]
        exact setPrev_prev_self first
      · intro later member
        have free : slot ≠ .next later :=
          fun same => outside later same (List.mem_cons_of_mem _ member)
        exact (setPrev_next _ _).trans (write_next_of_ne free)
      · intro later member
        have second : list.next node ≠ some later := next ▸ behind.tail_ne member
        exact (setPrev_prev_of_ne second).trans (write_prev _ _)
  | cons first rest inductionHypothesis =>
      have fresh : first ∉ rest ++ node :: back := (List.nodup_cons.mp linked.nodup).1
      have disjoint := (List.nodup_append.mp linked.nodup).2.2
      have next := linked.next_eq
      obtain ⟨reads, returns, behind⟩ := linked
      obtain ⟨own, prev, place, shorter⟩ := inductionHypothesis behind
        fun before same member => fresh (Slot.next.inj same ▸ member)
      have inside : ∃ before ∈ first :: rest, own = .next before := by
        rcases place with rfl | ⟨before, member, rfl⟩
        · exact ⟨first, List.mem_cons_self, rfl⟩
        · exact ⟨before, List.mem_cons_of_mem _ member, rfl⟩
      obtain ⟨before, member, rfl⟩ := inside
      have apart : slot ≠ .next before := by
        intro same
        exact outside before same (List.mem_append_left _ member)
      have self : Slot.next before ≠ .next node := fun same =>
        disjoint before member node List.mem_cons_self (Slot.next.inj same)
      refine ⟨.next before, prev, .inr ⟨before, member, rfl⟩, ?_, ?_, shorter⟩
      · rw [unlink_eq self, setPrev_read, write_read_of_ne apart]
        exact reads
      · rw [unlink_eq self]
        refine (setPrev_prev_of_ne ?_).trans ((write_prev _ _).trans returns)
        rw [next]
        intro same
        exact fresh (List.mem_append_right _
          (List.mem_cons_of_mem _ (List.mem_of_mem_head? same)))

/-- A listed node taken out: it has a back pointer, the others stay in order, and no back
pointer outside the list changes. -/
theorem Holds.unlink (holds : list.Holds nodes) {node : Node} (member : node ∈ nodes) :
    ∃ own front back, nodes = front ++ node :: back ∧ list.prev node = some own ∧
      (list.unlink node own).Holds (front ++ back) ∧
      ∀ other ∉ nodes, (list.unlink node own).prev other = list.prev other := by
  obtain ⟨front, back, rfl⟩ := List.append_of_mem member
  have disjoint := (List.nodup_append.mp holds.nodup).2.2
  obtain ⟨own, prev, place, shorter⟩ := Linked.unlink holds nofun
  refine ⟨own, front, back, rfl, prev, shorter, fun other outside => ?_⟩
  have apart : own ≠ .next node := by
    rcases place with rfl | ⟨before, within, rfl⟩
    · exact nofun
    · exact fun same => disjoint before within node List.mem_cons_self (Slot.next.inj same)
  have next : list.next node ≠ some other := by
    rw [Linked.next_eq holds]
    intro same
    exact outside (List.mem_append_right _
      (List.mem_cons_of_mem _ (List.mem_of_mem_head? same)))
  rw [unlink_eq apart]
  exact (setPrev_prev_of_ne next).trans (write_prev _ _)

end Operations

end SlotList

end NgrCore.Library
