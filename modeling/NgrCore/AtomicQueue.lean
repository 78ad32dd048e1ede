import NgrCore.Library.AtomicObject
import NgrCore.Library.Places
import NgrCore.IntrusiveQueue

/-!
Owns `__atomic_intrusive_queue` at the level of its pointers: any number of queues over one
link field, and any number of threads that push, prepend, pop and look. Every load and every
compare-exchange of a head is one step, and a weak compare-exchange may fail for no reason.

The lists the heads stand for, and the lists that calls carry, are kept beside the pointers
for the proofs; no step reads them.
-/

namespace NgrCore.AtomicQueue

open NgrCore.Library

variable {Node : Type}

/-- The calls. `pop` is `_M_pop_swap`, or `_M_pop_swap_reversed`. -/
inductive Op (Node : Type)
  | pushFront (queue : Nat) (node : Node)
  | prepend (queue : Nat) (nodes : List Node)
  | pop (queue : Nat) (reversed : Bool)
  | empty (queue : Nat)
deriving Repr, DecidableEq

inductive Result (Node : Type)
  | nothing
  | answer (value : Bool)
  | nodes (nodes : List Node)
deriving Repr, DecidableEq

/-- The order in which a pop returns the nodes of a list. -/
def order (reversed : Bool) (nodes : List Node) : List Node :=
  if reversed then nodes.reverse else nodes

/-- Where a thread stands. `pushLink`, `prependLink` and `reset` hold the head they expect,
`create` the list that `_M_reset` detached, and `popped` the queue made of it. `faulted` is
a write through a null `__tail`. -/
inductive Pc (Node : Type)
  | idle
  | pushLoad (queue : Nat) (node : Node)
  | pushLink (queue : Nat) (node : Node) (old : Option Node)
  | prependLoad (queue : Nat) (source : IntrusiveQueue Node) (nodes : List Node)
  | prependLink (queue : Nat) (source : IntrusiveQueue Node) (nodes : List Node)
      (old : Option Node)
  | resetLoad (queue : Nat) (reversed : Bool)
  | reset (queue : Nat) (reversed : Bool) (old : Option Node)
  | create (reversed : Bool) (list : Option Node) (nodes : List Node)
  | popped (queue : IntrusiveQueue Node) (nodes : List Node)
  | emptyLoad (queue : Nat)
  | returned (result : Result Node)
  | faulted
deriving Repr, DecidableEq

/-- The nodes in the hands of a call. -/
def Pc.nodes : Pc Node → List Node
  | .pushLoad _ node => [node]
  | .pushLink _ node _ => [node]
  | .prependLoad _ _ nodes => nodes
  | .prependLink _ _ nodes _ => nodes
  | .create _ _ nodes => nodes
  | .popped _ nodes => nodes
  | _ => []

/-- The link field of every node, the heads, the threads, and the lists of the heads. -/
structure State (Node : Type) where
  next : Links Node
  head : Nat → Option Node := fun _ => none
  pc : Nat → Pc Node := fun _ => .idle
  lists : Nat → List Node := fun _ => []

inductive Place
  | queue (index : Nat)
  | call (thread : Nat)
deriving Repr, DecidableEq

def State.items (s : State Node) : Place → List Node
  | .queue index => s.lists index
  | .call thread => (s.pc thread).nodes

/-- A node that is in no queue and in the hands of no call. -/
def State.Free (s : State Node) (node : Node) : Prop := ∀ place, node ∉ s.items place

section Steps

variable [DecidableEq Node]

/-- `_M_push_front` by a thread. The store to the node's own link belongs to the step that
read the head. -/
inductive PushStep (s : State Node) (i : Nat) :
    Event (Op Node) (Result Node) → State Node → Prop
  | call {node : Node} (queue : Nat) (pc : s.pc i = .idle) (free : s.Free node) :
      PushStep s i (.call i (.pushFront queue node))
        { s with pc := Function.update s.pc i (.pushLoad queue node) }
  | load {queue : Nat} {node : Node} (pc : s.pc i = .pushLoad queue node) :
      PushStep s i .quiet { s with
        next := Function.update s.next node (s.head queue)
        pc := Function.update s.pc i (.pushLink queue node (s.head queue)) }
  | retry {queue : Nat} {node : Node} {old : Option Node}
      (pc : s.pc i = .pushLink queue node old) :
      PushStep s i .quiet { s with
        next := Function.update s.next node (s.head queue)
        pc := Function.update s.pc i (.pushLink queue node (s.head queue)) }
  | link {queue : Nat} {node : Node} {old : Option Node}
      (pc : s.pc i = .pushLink queue node old) (unchanged : s.head queue = old) :
      PushStep s i (.effect i (.pushFront queue node) (.answer old.isNone)) { s with
        head := Function.update s.head queue (some node)
        pc := Function.update s.pc i (.returned (.answer old.isNone))
        lists := Function.update s.lists queue (node :: s.lists queue) }

/-- `_M_prepend` by a thread, of a queue that nobody else uses. The code does not ask whether
it is empty, so its callers must. -/
inductive PrependStep (s : State Node) (i : Nat) :
    Event (Op Node) (Result Node) → State Node → Prop
  | call {source : IntrusiveQueue Node} {nodes : List Node} (queue : Nat) (pc : s.pc i = .idle)
      (holds : source.Represents s.next nodes) (free : ∀ node ∈ nodes, s.Free node)
      (some : nodes ≠ []) :
      PrependStep s i (.call i (.prepend queue nodes))
        { s with pc := Function.update s.pc i (.prependLoad queue source nodes) }
  | load {queue : Nat} {source : IntrusiveQueue Node} {nodes : List Node} {tail : Node}
      (pc : s.pc i = .prependLoad queue source nodes) (last : source.tail = some tail) :
      PrependStep s i .quiet { s with
        next := Function.update s.next tail (s.head queue)
        pc := Function.update s.pc i (.prependLink queue source nodes (s.head queue)) }
  | fault {queue : Nat} {source : IntrusiveQueue Node} {nodes : List Node}
      (pc : s.pc i = .prependLoad queue source nodes) (null : source.tail = none) :
      PrependStep s i .quiet { s with pc := Function.update s.pc i .faulted }
  | retry {queue : Nat} {source : IntrusiveQueue Node} {nodes : List Node} {old : Option Node}
      {tail : Node} (pc : s.pc i = .prependLink queue source nodes old)
      (last : source.tail = some tail) :
      PrependStep s i .quiet { s with
        next := Function.update s.next tail (s.head queue)
        pc := Function.update s.pc i (.prependLink queue source nodes (s.head queue)) }
  | link {queue : Nat} {source : IntrusiveQueue Node} {nodes : List Node} {old : Option Node}
      (pc : s.pc i = .prependLink queue source nodes old) (unchanged : s.head queue = old) :
      PrependStep s i (.effect i (.prepend queue nodes) .nothing) { s with
        head := Function.update s.head queue source.head
        pc := Function.update s.pc i (.returned .nothing)
        lists := Function.update s.lists queue (nodes ++ s.lists queue) }

/-- `_M_pop_swap` and `_M_pop_swap_reversed` by a thread. The list it detached belongs to the
thread, so `__create` and `__create_reversed` are one step. The result is what the returned
queue stands for. -/
inductive PopStep (s : State Node) (i : Nat) :
    Event (Op Node) (Result Node) → State Node → Prop
  | call (queue : Nat) (reversed : Bool) (pc : s.pc i = .idle) :
      PopStep s i (.call i (.pop queue reversed))
        { s with pc := Function.update s.pc i (.resetLoad queue reversed) }
  | load {queue : Nat} {reversed : Bool} (pc : s.pc i = .resetLoad queue reversed) :
      PopStep s i .quiet
        { s with pc := Function.update s.pc i (.reset queue reversed (s.head queue)) }
  | retry {queue : Nat} {reversed : Bool} {old : Option Node}
      (pc : s.pc i = .reset queue reversed old) :
      PopStep s i .quiet
        { s with pc := Function.update s.pc i (.reset queue reversed (s.head queue)) }
  | take {queue : Nat} {reversed : Bool} {old : Option Node}
      (pc : s.pc i = .reset queue reversed old) (unchanged : s.head queue = old) :
      PopStep s i (.effect i (.pop queue reversed) (.nodes (order reversed (s.lists queue))))
        { s with
          head := Function.update s.head queue none
          pc := Function.update s.pc i (.create reversed old (s.lists queue))
          lists := Function.update s.lists queue [] }
  | create {list : Option Node} {nodes : List Node} {fuel : Nat} {queue : IntrusiveQueue Node}
      (pc : s.pc i = .create false list nodes)
      (created : IntrusiveQueue.create s.next fuel list = some queue) :
      PopStep s i .quiet { s with pc := Function.update s.pc i (.popped queue nodes) }
  | reverse {list : Option Node} {nodes : List Node} {fuel : Nat} {links : Links Node}
      {queue : IntrusiveQueue Node} (pc : s.pc i = .create true list nodes)
      (created : IntrusiveQueue.createReversed s.next fuel list = some (links, queue)) :
      PopStep s i .quiet { s with
        next := links
        pc := Function.update s.pc i (.popped queue nodes.reverse) }
  | ret {queue : IntrusiveQueue Node} {nodes shown : List Node}
      (pc : s.pc i = .popped queue nodes) (shows : queue.Represents s.next shown) :
      PopStep s i (.ret i (.nodes shown)) { s with pc := Function.update s.pc i .idle }

/-- `_M_empty` by a thread, and the return of every call but a pop. -/
inductive PlainStep (s : State Node) (i : Nat) :
    Event (Op Node) (Result Node) → State Node → Prop
  | call (queue : Nat) (pc : s.pc i = .idle) :
      PlainStep s i (.call i (.empty queue))
        { s with pc := Function.update s.pc i (.emptyLoad queue) }
  | load {queue : Nat} (pc : s.pc i = .emptyLoad queue) :
      PlainStep s i (.effect i (.empty queue) (.answer (s.head queue).isNone))
        { s with pc := Function.update s.pc i (.returned (.answer (s.head queue).isNone)) }
  | ret {result : Result Node} (pc : s.pc i = .returned result) :
      PlainStep s i (.ret i result) { s with pc := Function.update s.pc i .idle }

/-- A step of a thread, or a write by the owner of a node that is in no queue and no call. -/
inductive Step : State Node → Event (Op Node) (Result Node) → State Node → Prop
  | push {s next : State Node} {event : Event (Op Node) (Result Node)} (i : Nat) :
      PushStep s i event next → Step s event next
  | prepend {s next : State Node} {event : Event (Op Node) (Result Node)} (i : Nat) :
      PrependStep s i event next → Step s event next
  | pop {s next : State Node} {event : Event (Op Node) (Result Node)} (i : Nat) :
      PopStep s i event next → Step s event next
  | plain {s next : State Node} {event : Event (Op Node) (Result Node)} (i : Nat) :
      PlainStep s i event next → Step s event next
  | write {s : State Node} (node : Node) (value : Option Node) (free : s.Free node) :
      Step s .quiet { s with next := Function.update s.next node value }

/-- From empty queues and any contents of the link fields. -/
def system : System (State Node) (Event (Op Node) (Result Node)) where
  Init s := ∃ links, s = { next := links }
  Step := Step

/-! ### What it is for -/

/-- Stacks of nodes: a push puts one on top and tells whether the stack was empty, a prepend
puts a list on top, and a pop takes all. -/
def stackObject : SequentialObject (Nat → List Node) (Op Node) (Result Node) where
  Act lists op result after :=
    match op with
    | .pushFront queue node =>
        result = .answer (lists queue).isEmpty ∧
          after = Function.update lists queue (node :: lists queue)
    | .prepend queue nodes =>
        result = .nothing ∧ after = Function.update lists queue (nodes ++ lists queue)
    | .pop queue reversed =>
        result = .nodes (order reversed (lists queue)) ∧
          after = Function.update lists queue []
    | .empty queue => result = .answer (lists queue).isEmpty ∧ after = lists

end Steps

end NgrCore.AtomicQueue
