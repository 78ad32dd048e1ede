import NgrCore.IntrusiveQueue
import NgrCore.Library.Transition

/-!
Owns any number of `__intrusive_queue`s that share the link fields of their nodes, and the
lists they stand for: every operation on the pointers acts as its operation on the lists,
and no node is in two of them.

A popped node keeps its link, so a null-terminated list may run through a queue.
-/

namespace NgrCore.IntrusiveQueue

open NgrCore.Library

section Definitions

variable {Name Node : Type*}

/-- The queues by name, with the links of all nodes. -/
structure Queues (Name Node : Type*) where
  next : Links Node
  queue : Name → IntrusiveQueue Node := fun _ => {}

/-- A call, whose arguments by value are moved from queues. `moved` is the move constructor,
and `create` and `createReversed` construct the queue too. A `store` is what others do with
the link of a node. -/
inductive Call (Name Node : Type*)
  | pushFront (q : Name) (item : Node)
  | pushBack (q : Name) (item : Node)
  | popFront (q : Name)
  | append (q other : Name)
  | prepend (q other : Name)
  | clear (q : Name)
  | moved (q other : Name)
  | create (q : Name) (list : Option Node)
  | createReversed (q : Name) (list : Option Node)
  | store (item : Node) (value : Option Node)
deriving Repr, DecidableEq

/-- The list behind a pointer that a call is given. -/
def Call.Given (next : Links Node) (given : List Node) : Call Name Node → Prop
  | .create _ list | .createReversed _ list => Chain next list given
  | _ => True

namespace Queues

/-- No queue leads to the node. -/
def Free (s : Queues Name Node) (item : Node) : Prop :=
  ∀ q nodes, Chain s.next (s.queue q).head nodes → item ∉ nodes

/-- The calls that may be made. -/
def Allowed (s : Queues Name Node) : Call Name Node → Prop
  | .pushFront _ item | .pushBack _ item | .store item _ => s.Free item
  | .create _ list | .createReversed _ list => ∃ nodes, Chain s.next list nodes
  | _ => True

variable [DecidableEq Name]

/-- One queue changes, and some links. -/
def put (s : Queues Name Node) (q : Name) (next : Links Node) (queue : IntrusiveQueue Node) :
    Queues Name Node :=
  { next, queue := Function.update s.queue q queue }

/-- What a queue is left with once it has been moved from. -/
def release (s : Queues Name Node) (q : Name) : Queues Name Node := s.put q s.next {}

variable [DecidableEq Node]

/-- A call: what it returns, and the queues after it. `none` means that a null pointer was
followed or that the fuel for a loop ran out. -/
def exec (s : Queues Name Node) (fuel : Nat) :
    Call Name Node → Option (Option Node × Queues Name Node)
  | .pushFront q item =>
      let (next, queue) := (s.queue q).pushFront s.next item
      some (none, s.put q next queue)
  | .pushBack q item =>
      let (next, queue) := (s.queue q).pushBack s.next item
      some (none, s.put q next queue)
  | .popFront q =>
      let (item, queue) := (s.queue q).popFront s.next
      some (item, s.put q s.next queue)
  | .append q other =>
      let argument := s.queue other
      let s := s.release other
      ((s.queue q).append s.next argument).map fun (next, queue) => (none, s.put q next queue)
  | .prepend q other =>
      let argument := s.queue other
      let s := s.release other
      ((s.queue q).prepend s.next argument).map fun (next, queue) => (none, s.put q next queue)
  | .clear q => some (none, s.put q s.next ⟨none, none⟩)
  | .moved q other =>
      let argument := s.queue other
      some (none, (s.release other).put q s.next argument)
  | .create q list =>
      (IntrusiveQueue.create s.next fuel list).map fun queue => (none, s.put q s.next queue)
  | .createReversed q list =>
      (IntrusiveQueue.createReversed s.next fuel list).map fun (next, queue) =>
        (none, s.put q next queue)
  | .store item value => some (none, { s with next := Function.update s.next item value })

/-- Any number of queues, empty at first, over nodes with any links. A step is a call that is
allowed and returns. -/
def system (Name Node : Type*) [DecidableEq Name] [DecidableEq Node] :
    System (Queues Name Node) (Call Name Node) where
  Init s := ∀ q, s.queue q = {}
  Step s call after := s.Allowed call ∧ ∃ fuel answer, s.exec fuel call = some (answer, after)

end Queues

/-- The lists that `__create` and `__create_reversed` are given have no node of a queue. -/
def Detached (s : Queues Name Node) (call : Call Name Node) : Prop :=
  match call with
  | .create _ list | .createReversed _ list =>
      ∀ nodes, Chain s.next list nodes → ∀ node ∈ nodes, s.Free node
  | _ => True

/-! ### The lists -/

def act [DecidableEq Name] (lists : Name → List Node) (given : List Node) :
    Call Name Node → Name → List Node
  | .pushFront q item => Function.update lists q (item :: lists q)
  | .pushBack q item => Function.update lists q (lists q ++ [item])
  | .popFront q => Function.update lists q (lists q).tail
  | .append q other =>
      let rest := Function.update lists other []
      Function.update rest q (rest q ++ lists other)
  | .prepend q other =>
      let rest := Function.update lists other []
      Function.update rest q (lists other ++ rest q)
  | .clear q => Function.update lists q []
  | .moved q other => Function.update (Function.update lists other []) q (lists other)
  | .create q _ => Function.update lists q given
  | .createReversed q _ => Function.update lists q given.reverse
  | .store _ _ => lists

def answer (lists : Name → List Node) : Call Name Node → Option Node
  | .popFront q => (lists q).head?
  | _ => none

/-- Each queue stands for its list, and no node is in two lists. -/
structure Lists (s : Queues Name Node) (lists : Name → List Node) : Prop where
  represents : ∀ q, Represents s.next (s.queue q) (lists q)
  apart : ∀ q r node, node ∈ lists q → node ∈ lists r → q = r

/-- Every call that is allowed returns, if its loop has the fuel for the list given, and acts
on the lists. -/
structure Acts [DecidableEq Name] [DecidableEq Node] (s : Queues Name Node)
    (lists : Name → List Node) (call : Call Name Node) (given : List Node) : Prop where
  returns : ∀ fuel, given.length ≤ fuel → (s.exec fuel call).isSome
  result : ∀ fuel value after, s.exec fuel call = some (value, after) →
    value = answer lists call ∧ Lists after (act lists given call)

end Definitions

section Operations

variable {Name Node : Type*} {s : Queues Name Node} {lists : Name → List Node} {item : Node}

/-- The queues lead to the nodes of their lists. -/
theorem Lists.free_iff (l : Lists s lists) : s.Free item ↔ ∀ q, item ∉ lists q := by
  constructor
  · exact fun free q => free q (lists q) (l.represents q).1
  · intro outside q nodes chain
    rw [chain.unique (l.represents q).1]
    exact outside q

theorem Lists.apart_new (l : Lists s lists) {q : Name} (outside : ∀ r, item ∉ lists r)
    {nodes : List Node}
    (new : nodes ⊆ item :: lists q) (r : Name) (other : r ≠ q) (node : Node)
    (member : node ∈ nodes) : node ∉ lists r := by
  rcases List.mem_cons.mp (new member) with rfl | old
  · exact outside r
  · exact fun there => other (l.apart r q node there old)

variable [DecidableEq Name] {q other : Name}

/-- One queue changes and stands for its new list, and the links of the others stay. -/
theorem Lists.put (l : Lists s lists) {links : Links Node} {queue : IntrusiveQueue Node}
    {nodes : List Node} (represents : Represents links queue nodes)
    (agree : ∀ r, r ≠ q → ∀ node ∈ lists r, links node = s.next node)
    (apart : ∀ r, r ≠ q → ∀ node ∈ nodes, node ∉ lists r) :
    Lists (s.put q links queue) (Function.update lists q nodes) := by
  refine ⟨fun r => ?_, fun r t node here there => ?_⟩
  · change Represents links (Function.update s.queue q queue r) _
    by_cases mine : r = q
    · rw [mine, Function.update_self, Function.update_self]
      exact represents
    · rw [Function.update_of_ne mine, Function.update_of_ne mine]
      exact (l.represents r).congr (agree r mine)
  · by_cases first : r = q
    · by_cases second : t = q
      · rw [first, second]
      · rw [first, Function.update_self] at here
        rw [Function.update_of_ne second] at there
        exact absurd there (apart t second node here)
    · rw [Function.update_of_ne first] at here
      by_cases second : t = q
      · rw [second, Function.update_self] at there
        exact absurd here (apart r first node there)
      · rw [Function.update_of_ne second] at there
        exact l.apart r t node here there

/-- A queue with another list that is part of its own. -/
theorem Lists.put_same (l : Lists s lists) {queue : IntrusiveQueue Node} {nodes : List Node}
    (represents : Represents s.next queue nodes) (part : nodes ⊆ lists q) :
    Lists (s.put q s.next queue) (Function.update lists q nodes) :=
  l.put represents (fun _ _ _ _ => rfl) fun r other node member there =>
    other (l.apart r q node there (part member))

theorem Lists.release (l : Lists s lists) (q : Name) :
    Lists (s.release q) (Function.update lists q []) :=
  l.put_same represents_empty (List.nil_subset _)

/-- What was in the queue released is in no list. -/
theorem Lists.outside (l : Lists s lists) {node : Node} (member : node ∈ lists other) (r : Name) :
    node ∉ Function.update lists other [] r := by
  by_cases mine : r = other
  · rw [mine, Function.update_self]
    exact List.not_mem_nil
  · rw [Function.update_of_ne mine]
    exact fun there => mine (l.apart r other node there member)

variable [DecidableEq Node] {given : List Node} {call : Call Name Node}

/-- A call whose result does not depend on the fuel. -/
theorem Acts.of_exec {value : Option Node} {after : Queues Name Node}
    (called : ∀ fuel, s.exec fuel call = some (value, after)) (same : value = answer lists call)
    (now : Lists after (act lists given call)) : Acts s lists call given := by
  refine ⟨fun fuel _ => by rw [called fuel]; rfl, fun fuel other next result => ?_⟩
  cases (called fuel).symm.trans result
  exact ⟨same, now⟩

theorem Lists.pushFront (l : Lists s lists) (free : s.Free item) :
    Acts s lists (.pushFront q item) given := by
  have outside := l.free_iff.mp free
  refine .of_exec (fun _ => rfl) rfl ?_
  refine l.put ((l.represents q).pushFront (outside q)) ?_ ?_
  · intro r _ node member
    exact Function.update_of_ne (ne_of_mem_of_not_mem member (outside r)) _ _
  · exact l.apart_new outside (List.Subset.refl _)

theorem Lists.pushBack (l : Lists s lists) (free : s.Free item) :
    Acts s lists (.pushBack q item) given := by
  have outside := l.free_iff.mp free
  obtain ⟨represents, agree⟩ := (l.represents q).pushBack (outside q)
  have new : lists q ++ [item] ⊆ item :: lists q := by
    intro node member
    simpa [or_comm] using member
  have apart := l.apart_new outside new
  refine .of_exec (fun _ => rfl) rfl (l.put represents ?_ apart)
  exact fun r other node member => agree node fun mine => apart r other node mine member

theorem Lists.popFront (l : Lists s lists) : Acts s lists (.popFront q) given := by
  obtain ⟨taken, left⟩ := (l.represents q).popFront_tail
  exact .of_exec (fun _ => rfl) taken (l.put_same left (List.tail_sublist _).subset)

/-- The argument is moved from before the queue is read, so that a queue may be appended to
itself. -/
theorem Lists.append (l : Lists s lists) : Acts s lists (.append q other) given := by
  have rest := l.release other
  have argument : Represents (s.release other).next (s.queue other) (lists other) :=
    l.represents other
  have disjoint (node : Node) (member : node ∈ Function.update lists other [] q) :
      node ∉ lists other := fun there => l.outside there q member
  obtain ⟨links, queue, called, represents, agree⟩ :=
    (rest.represents q).append argument disjoint
  refine .of_exec (fun _ => ?_) rfl (rest.put represents ?_ ?_)
  · rw [Queues.exec, called]
    rfl
  · exact fun r different node member => agree node fun mine =>
      different (rest.apart r q node member mine)
  · intro r different node member there
    rcases List.mem_append.mp member with mine | moved
    · exact different (rest.apart r q node there mine)
    · exact l.outside moved r there

theorem Lists.prepend (l : Lists s lists) : Acts s lists (.prepend q other) given := by
  have rest := l.release other
  have argument : Represents (s.release other).next (s.queue other) (lists other) :=
    l.represents other
  have disjoint (node : Node) (member : node ∈ lists other) :
      node ∉ Function.update lists other [] q := l.outside member q
  obtain ⟨links, queue, called, represents, agree⟩ :=
    (rest.represents q).prepend argument disjoint
  refine .of_exec (fun _ => ?_) rfl (rest.put represents ?_ ?_)
  · rw [Queues.exec, called]
    rfl
  · exact fun r _ node member => agree node fun moved => l.outside moved r member
  · intro r different node member there
    rcases List.mem_append.mp member with moved | mine
    · exact l.outside moved r there
    · exact different (rest.apart r q node there mine)

theorem Lists.clear (l : Lists s lists) : Acts s lists (.clear q) given :=
  .of_exec (fun _ => rfl) rfl (l.put_same represents_empty (List.nil_subset _))

theorem Lists.moved (l : Lists s lists) : Acts s lists (.moved q other) given := by
  refine .of_exec (fun _ => rfl) rfl ((l.release other).put (l.represents other) ?_ ?_)
  · exact fun _ _ _ _ => rfl
  · exact fun r _ node member => l.outside member r

theorem Lists.create (l : Lists s lists) {list : Option Node} (chain : Chain s.next list given)
    (free : ∀ node ∈ given, s.Free node) : Acts s lists (.create q list) given := by
  constructor
  · intro fuel enough
    rw [Queues.exec, Option.isSome_map]
    exact create_isSome chain enough
  · intro fuel value after called
    obtain ⟨queue, created, same⟩ := Option.map_eq_some_iff.mp called
    cases same
    refine ⟨rfl, l.put (create_eq chain created) (fun _ _ _ _ => rfl) ?_⟩
    exact fun r _ node member => l.free_iff.mp (free node member) r

theorem Lists.createReversed (l : Lists s lists) {list : Option Node}
    (chain : Chain s.next list given) (free : ∀ node ∈ given, s.Free node) :
    Acts s lists (.createReversed q list) given := by
  have outside (r : Name) (node : Node) (member : node ∈ lists r) : node ∉ given :=
    fun mine => l.free_iff.mp (free node mine) r member
  constructor
  · intro fuel enough
    obtain ⟨links, reversed, called, -⟩ := createReversed_spec fuel enough chain
    rw [Queues.exec, called]
    rfl
  · intro fuel value after called
    obtain ⟨⟨links, reversed⟩, created, same⟩ := Option.map_eq_some_iff.mp called
    cases same
    obtain ⟨represents, agree⟩ := createReversed_eq chain created
    refine ⟨rfl, l.put represents ?_ ?_⟩
    · exact fun r _ node member => agree node (outside r node member)
    · exact fun r _ node member there => outside r node there (List.mem_reverse.mp member)

theorem Lists.store (l : Lists s lists) {value : Option Node} (free : s.Free item) :
    Acts s lists (.store item value) given := by
  refine .of_exec (fun _ => rfl) rfl ⟨fun r => ?_, l.apart⟩
  refine (l.represents r).congr fun node member => Function.update_of_ne ?_ _ _
  exact ne_of_mem_of_not_mem member (l.free_iff.mp free r)

theorem Lists.acts (l : Lists s lists) (allowed : s.Allowed call) (detached : Detached s call)
    (list : call.Given s.next given) : Acts s lists call given := by
  cases call with
  | pushFront q item => exact l.pushFront allowed
  | pushBack q item => exact l.pushBack allowed
  | popFront q => exact l.popFront
  | append q other => exact l.append
  | prepend q other => exact l.prepend
  | clear q => exact l.clear
  | moved q other => exact l.moved
  | create q first => exact l.create list (detached given list)
  | createReversed q first => exact l.createReversed list (detached given list)
  | store item value => exact l.store allowed

omit [DecidableEq Name] [DecidableEq Node] in
theorem exists_given (allowed : s.Allowed call) : ∃ nodes, call.Given s.next nodes := by
  cases call with
  | create q list => exact allowed
  | createReversed q list => exact allowed
  | pushFront | pushBack | popFront | append | prepend | clear | moved | store =>
      exact ⟨[], trivial⟩

theorem Lists.exec {fuel : Nat} {value : Option Node} {after : Queues Name Node}
    (l : Lists s lists) (allowed : s.Allowed call) (detached : Detached s call)
    (list : call.Given s.next given) (called : s.exec fuel call = some (value, after)) :
    Lists after (act lists given call) :=
  ((l.acts allowed detached list).result fuel value after called).2

theorem Lists.step {value : Option Node} {after : Queues Name Node} (l : Lists s lists)
    (reachable : ((Queues.system Name Node).restrict Detached).Reachable s) (fuel : Nat)
    (given : List Node) (call : Call Name Node) (allowed : s.Allowed call)
    (detached : Detached s call) (list : call.Given s.next given)
    (called : s.exec fuel call = some (value, after)) :
    ((Queues.system Name Node).restrict Detached).Reachable after ∧
      Lists after (act lists given call) :=
  ⟨reachable.step ⟨detached, allowed, fuel, value, called⟩,
    l.exec allowed detached list called⟩

/-- The queues stand for lists that share no node, and every call acts on the lists, along
every sequence of calls. -/
theorem lists_of_detached (reachable : ((Queues.system Name Node).restrict Detached).Reachable s) :
    ∃ lists, Lists s lists ∧ ∀ call given, s.Allowed call → Detached s call →
      call.Given s.next given → Acts s lists call given := by
  have represented : ∃ lists, Lists s lists := by
    refine reachable.invariant (fun s => ∃ lists, Lists s lists) ?_ ?_
    · intro start empty
      refine ⟨fun _ => [], fun q => ?_, nofun⟩
      rw [empty q]
      exact represents_empty
    · rintro s call after _ ⟨lists, l⟩ ⟨detached, allowed, fuel, value, called⟩
      obtain ⟨given, list⟩ := exists_given allowed
      exact ⟨_, l.exec allowed detached list called⟩
  obtain ⟨lists, l⟩ := represented
  exact ⟨lists, l, fun call given allowed detached list => l.acts allowed detached list⟩

end Operations

/-- A node leaves a queue of two, and keeps its link to the other. -/
theorem popped_reachable : ∃ s : Queues Bool Nat,
    ((Queues.system Bool Nat).restrict Detached).Reachable s ∧
      Lists s (fun q => if q then [] else [2]) ∧ s.queue false = ⟨some 2, some 2⟩ ∧
      s.next 1 = some 2 ∧ s.next 2 = none ∧ s.next 3 = none := by
  let start : Queues Bool Nat := { next := fun _ => none }
  have empty : Lists start fun _ => [] := ⟨fun _ => represents_empty, nofun⟩
  have created : ((Queues.system Bool Nat).restrict Detached).Reachable start :=
    .init fun _ => rfl
  have one : start.Free 1 := empty.free_iff.mpr (by decide)
  obtain ⟨begun, single⟩ :=
    empty.step created 0 [] (.pushBack false 1) one trivial trivial rfl
  obtain ⟨filled, both⟩ := single.step begun 0 [] (.pushBack false 2)
    (single.free_iff.mpr (by decide)) trivial trivial rfl
  obtain ⟨popped, left⟩ := both.step filled 0 [] (.popFront false) trivial trivial trivial rfl
  refine ⟨_, popped, ?_, rfl, rfl, rfl, rfl⟩
  convert left using 1
  funext q
  cases q <;> rfl

/-- The node that was popped is pushed again, and another queue is made of a node beside
them. -/
theorem lists_of_detached_create : ∃ s : Queues Bool Nat, s.queue false = ⟨some 1, some 2⟩ ∧
    ∃ lists, Lists s lists ∧ Acts s lists (.create true (some 3)) [3] := by
  obtain ⟨s, reachable, left, first, -, -, alone⟩ := popped_reachable
  have one : s.Free 1 := left.free_iff.mpr (by decide)
  obtain ⟨pushed, both⟩ := left.step reachable 0 [] (.pushFront false 1) one trivial trivial rfl
  have behind : ((s.queue false).pushFront s.next 1).2 = ⟨some 1, some 2⟩ := by
    rw [first]
    rfl
  have list : Chain (Function.update s.next 1 (s.queue false).head) (some 3) [3] :=
    ⟨rfl, (Function.update_of_ne (by decide) _ _).trans alone⟩
  obtain ⟨lists, l, acts⟩ := lists_of_detached pushed
  refine ⟨_, behind, lists, l, acts (.create true (some 3)) [3] ⟨[3], list⟩ ?_ list⟩
  intro nodes chain node member
  rw [chain.unique list, List.mem_singleton] at member
  rw [member]
  exact both.free_iff.mpr (by decide)

/-- A popped node still leads to the rest of its queue, and `__create` makes another queue of
it. -/
theorem popped_list_shared : ¬ ∀ s : Queues Bool Nat, (Queues.system Bool Nat).Reachable s →
    ∃ lists, Lists s lists := by
  intro claim
  obtain ⟨s, reachable, -, first, one, two, -⟩ := popped_reachable
  have behind : Chain s.next (some 1) [1, 2] := ⟨rfl, one, two⟩
  have last : lastLoop s.next 1 1 = some 2 := by
    have rest : Chain s.next (s.next 1) [2] := ⟨one, two⟩
    refine lastLoop_spec 1 ?_ rest
    exact Nat.le_refl 1
  have called : s.exec 1 (.create true (some 1)) =
      some (none, s.put true s.next ⟨some 1, some 2⟩) := by
    rw [Queues.exec, IntrusiveQueue.create, last]
    rfl
  have allowed : s.Allowed (.create true (some 1)) := ⟨[1, 2], behind⟩
  obtain ⟨lists, l⟩ := claim _ (reachable.of_restrict.step ⟨allowed, 1, none, called⟩)
  have mine : lists true = [1, 2] := (l.represents true).1.unique behind
  have other : lists false = [2] := by
    refine (l.represents false).1.unique ?_
    change Chain s.next (s.queue false).head [2]
    rw [first]
    exact ⟨rfl, two⟩
  have same : true = false := by
    refine l.apart true false 2 ?_ ?_
    · rw [mine]
      decide
    · rw [other]
      decide
  cases same

end NgrCore.IntrusiveQueue
