import NgrCore.Library.Chain
import NgrCore.Library.Neighbours
import NgrCore.Library.Transition

/-!
Owns `__intrusive_mpsc_queue`: producers in `_M_push_back` and one consumer in
`_M_pop_front`, at the level of the pointers. Every atomic operation is one step.

A producer first exchanges the head and then links its node behind the one it found
there; until then the list is cut in two.
-/

namespace NgrCore.MpscQueue

open NgrCore.Library

/-- Where a call of `_M_push_back` stands. `held` says, for the proofs only, whether the
queue held a node at the exchange. -/
inductive Push (Node : Type)
  | idle
  | exchange (newNode : Node)
  | link (prev newNode : Node) (held : Bool)
  | returned (result held : Bool)
deriving Repr, DecidableEq

/-- Where the call of `_M_pop_front` stands. `loadNext` follows the step past the stub,
`stubLink` is inside `_M_push_back(&__stub_)`. -/
inductive Pop (Node : Type)
  | idle
  | load
  | loadNext
  | loadHead
  | stubStore
  | stubExchange
  | stubLink (prev : Node)
  | reload
  | returned (result : Option Node)
deriving Repr, DecidableEq

def Push.newNode {Node : Type} : Push Node → Option Node
  | .exchange newNode | .link _ newNode _ => some newNode
  | .idle | .returned _ _ => none

/-- A call of `_M_pop_front` is in progress. -/
def Pop.running {Node : Type} : Pop Node → Bool
  | .idle | .returned _ => false
  | _ => true

/-- `__head_`, `__tail_` and the `_Next` fields, with the calls. For the proofs only: the
nodes from the tail to the head in the order of the exchanges, the producers' nodes in
that order since the beginning, those popped, and the number of calls of
`_M_pop_front`. -/
structure State (Node Thread : Type) where
  head : Node
  tail : Node
  next : Links Node
  producer : Thread → Push Node := fun _ => .idle
  consumer : Pop Node := .idle
  nodes : List Node
  pushed : List Node := []
  popped : List Node := []
  pops : Nat := 0

/-- The producers' nodes in the queue. -/
def State.unpopped {Node Thread : Type} (s : State Node Thread) : List Node :=
  s.pushed.drop s.popped.length

section Steps

variable {Node Thread : Type} [DecidableEq Node] [DecidableEq Thread] (stub : Node)

/-- The steps of `_M_push_back`, called by producers. A node that is in the queue, or
that another call is given, is not pushed. -/
inductive PushStep (s : State Node Thread) (t : Thread) : State Node Thread → Prop
  | begin {newNode : Node} (free : (s.producer t).newNode = none) (own : newNode ≠ stub)
      (outside : newNode ∉ s.unpopped) (unclaimed : ∀ u, (s.producer u).newNode ≠ some newNode) :
      PushStep s t { s with
        next := Function.update s.next newNode none
        producer := Function.update s.producer t (.exchange newNode) }
  | exchange {newNode : Node} (pc : s.producer t = .exchange newNode) :
      PushStep s t { s with
        head := newNode
        producer := Function.update s.producer t
          (.link s.head newNode (!s.unpopped.isEmpty))
        nodes := s.nodes ++ [newNode]
        pushed := s.pushed ++ [newNode] }
  | link {prev newNode : Node} {held : Bool} (pc : s.producer t = .link prev newNode held) :
      PushStep s t { s with
        next := Function.update s.next prev (some newNode)
        producer := Function.update s.producer t (.returned (decide (prev = stub)) held) }

/-- The steps of `_M_pop_front`. The tail belongs to the consumer alone, so its local
`__tail` is `__tail_` wherever it is used. -/
inductive PopStep (s : State Node Thread) : State Node Thread → Prop
  | begin (free : s.consumer.running = false) :
      PopStep s { s with consumer := .load, pops := s.pops + 1 }
  | empty (pc : s.consumer = .load) (atStub : s.tail = stub) (next : s.next s.tail = none) :
      PopStep s { s with consumer := .returned none }
  | skip {node : Node} (pc : s.consumer = .load) (atStub : s.tail = stub)
      (next : s.next s.tail = some node) :
      PopStep s { s with tail := node, consumer := .loadNext, nodes := s.nodes.tail }
  | take {node : Node}
      (pc : (s.consumer = .load ∧ s.tail ≠ stub) ∨ s.consumer = .loadNext ∨ s.consumer = .reload)
      (next : s.next s.tail = some node) :
      PopStep s { s with
        tail := node
        consumer := .returned (some s.tail)
        nodes := s.nodes.tail
        popped := s.popped ++ [s.tail] }
  | miss (pc : (s.consumer = .load ∧ s.tail ≠ stub) ∨ s.consumer = .loadNext)
      (next : s.next s.tail = none) : PopStep s { s with consumer := .loadHead }
  | behind (pc : s.consumer = .loadHead) (other : s.head ≠ s.tail) :
      PopStep s { s with consumer := .returned none }
  | last (pc : s.consumer = .loadHead) (same : s.head = s.tail) :
      PopStep s { s with consumer := .stubStore }
  | stubStore (pc : s.consumer = .stubStore) :
      PopStep s { s with next := Function.update s.next stub none, consumer := .stubExchange }
  | stubExchange (pc : s.consumer = .stubExchange) :
      PopStep s { s with
        head := stub
        consumer := .stubLink s.head
        nodes := s.nodes ++ [stub] }
  | stubLink {prev : Node} (pc : s.consumer = .stubLink prev) :
      PopStep s { s with
        next := Function.update s.next prev (some stub)
        consumer := .reload }
  | giveUp (pc : s.consumer = .reload) (next : s.next s.tail = none) :
      PopStep s { s with consumer := .returned none }

inductive Step (s : State Node Thread) : Option Thread → State Node Thread → Prop
  | push {t : Thread} {next : State Node Thread} (step : PushStep stub s t next) :
      Step s (some t) next
  | pop {next : State Node Thread} (step : PopStep stub s next) : Step s none next

/-- Any number of producers and one consumer, from an empty queue. -/
def system (Thread : Type) [DecidableEq Thread] (stub : Node) :
    System (State Node Thread) (Option Thread) where
  Init s := ∃ next, next stub = none ∧ s = { head := stub, tail := stub, next, nodes := [stub] }
  Step := Step stub

end Steps

section Definitions

variable {Node Thread : Type}

/-- A call is between its exchange and its link. -/
def Linking (stub : Node) (s : State Node Thread) (prev newNode : Node) : Prop :=
  (∃ t held, s.producer t = .link prev newNode held) ∨
    (s.consumer = .stubLink prev ∧ newNode = stub)

/-- What the position of the consumer says. -/
def PopOk (stub : Node) (s : State Node Thread) : Pop Node → Prop
  | .idle | .load | .returned none => True
  | .returned (some node) => node ≠ stub
  | .loadNext | .loadHead => s.tail ≠ stub
  | .stubStore => s.tail ≠ stub ∧ stub ∉ s.nodes
  | .stubExchange => s.tail ≠ stub ∧ stub ∉ s.nodes ∧ s.next stub = none
  | .stubLink _ | .reload => s.tail ≠ stub ∧ stub ∈ s.nodes

/-- The result of a finished push tells whether the queue was empty at its exchange. -/
def PushOk (stub : Node) : Push Node → Prop
  | .link prev _ held => prev ≠ stub → held = true
  | .returned result held => result = false → held = true
  | _ => True

structure Inv [DecidableEq Node] (stub : Node) (s : State Node Thread) : Prop where
  first : s.nodes.head? = some s.tail
  last : s.nodes.getLast? = some s.head
  nodup : s.nodes.Nodup
  links : ∀ x y, Follows s.nodes x y →
    s.next x = some y ∨ (s.next x = none ∧ Linking stub s x y)
  linking : ∀ x y, Linking stub s x y → Follows s.nodes x y ∧ s.next x = none
  ends : s.next s.head = none
  ready : ∀ t node, s.producer t = .exchange node → node ∉ s.nodes ∧ s.next node = none
  given : ∀ t node, (s.producer t).newNode = some node → node ≠ stub
  distinct : ∀ t u node, (s.producer t).newNode = some node →
    (s.producer u).newNode = some node → t = u
  contents : s.popped ++ s.nodes.filter (· ≠ stub) = s.pushed
  producers : ∀ t, PushOk stub (s.producer t)
  consumer : PopOk stub s s.consumer

theorem inv_init [DecidableEq Node] {stub : Node} {next : Links Node} (null : next stub = none) :
    Inv stub ({ head := stub, tail := stub, next, nodes := [stub] } : State Node Thread) where
  first := rfl
  last := rfl
  nodup := List.nodup_singleton stub
  links _ _ follows := absurd follows follows_singleton
  linking _ _ := by
    rintro (⟨_, _, pc⟩ | ⟨pc, _⟩)
    · cases pc
    · cases pc
  ends := null
  ready _ _ := nofun
  given _ _ := nofun
  distinct _ _ _ := nofun
  contents := by simp
  producers _ := trivial
  consumer := trivial

end Definitions

section Facts

variable {Node Thread : Type} [DecidableEq Node] {stub : Node} {s : State Node Thread}

theorem Inv.head_mem (inv : Inv stub s) : s.head ∈ s.nodes := List.mem_of_getLast? inv.last

theorem Inv.tail_mem (inv : Inv stub s) : s.tail ∈ s.nodes := List.mem_of_head? inv.first

theorem Inv.nodes_eq (inv : Inv stub s) : s.nodes = s.tail :: s.nodes.tail :=
  (List.cons_head?_tail inv.first).symm

/-- The queue holds exactly the nodes between tail and head, without the stub. -/
theorem Inv.unpopped (inv : Inv stub s) : s.unpopped = s.nodes.filter (· ≠ stub) := by
  unfold State.unpopped
  rw [← inv.contents, List.drop_left]

theorem Inv.mem_unpopped (inv : Inv stub s) {node : Node} :
    node ∈ s.unpopped ↔ node ∈ s.nodes ∧ node ≠ stub := by
  rw [inv.unpopped, List.mem_filter]
  simp

/-- A link that is there leads to the next node. -/
theorem Inv.next_follows (inv : Inv stub s) {x y : Node} (member : x ∈ s.nodes)
    (next : s.next x = some y) : Follows s.nodes x y := by
  have notLast : s.nodes.getLast? ≠ some x := by
    intro last
    have same : x = s.head := Option.some.inj (last.symm.trans inv.last)
    rw [same, inv.ends] at next
    cases next
  obtain ⟨z, follows⟩ := exists_follows member notLast
  rcases inv.links x z follows with linked | ⟨null, _⟩
  · cases linked.symm.trans next
    exact follows
  · cases null.symm.trans next

/-- Behind a node that is not linked yet, there is nothing or a call that will link it. -/
theorem Inv.next_none (inv : Inv stub s) {x : Node} (member : x ∈ s.nodes)
    (null : s.next x = none) : x = s.head ∨ ∃ y, Linking stub s x y := by
  by_cases last : s.nodes.getLast? = some x
  · exact .inl (Option.some.inj (last.symm.trans inv.last))
  · obtain ⟨y, follows⟩ := exists_follows member last
    rcases inv.links x y follows with linked | ⟨_, linking⟩
    · cases linked.symm.trans null
    · exact .inr ⟨y, linking⟩

theorem Inv.next_tail (inv : Inv stub s) {node : Node} (next : s.next s.tail = some node) :
    s.nodes.tail.head? = some node := by
  have follows := inv.next_follows inv.tail_mem next
  rw [inv.nodes_eq] at follows
  rcases follows_cons.mp follows with ⟨_, here⟩ | later
  · exact here
  · have nodup := inv.nodup
    rw [inv.nodes_eq] at nodup
    exact absurd later.mem_first (List.nodup_cons.mp nodup).1

end Facts

section Links

variable {Node Thread : Type} {stub : Node} {s after : State Node Thread}

/-- A producer that stands elsewhere keeps the calls that are about to link. -/
theorem linking_of_push [DecidableEq Thread] {t : Thread} (call : Push Node)
    (producer : after.producer = Function.update s.producer t call)
    (consumer : after.consumer = s.consumer)
    (before : ∀ x y held, s.producer t ≠ .link x y held) {x y : Node} :
    Linking stub after x y ↔ Linking stub s x y ∨ ∃ held, call = .link x y held := by
  unfold Linking
  rw [producer, consumer]
  constructor
  · rintro (⟨u, held, pc⟩ | consumer)
    · by_cases mine : u = t
      · rw [mine, Function.update_self] at pc
        exact .inr ⟨held, pc⟩
      · rw [Function.update_of_ne mine] at pc
        exact .inl (.inl ⟨u, held, pc⟩)
    · exact .inl (.inr consumer)
  · rintro ((⟨u, held, pc⟩ | consumer) | ⟨held, pc⟩)
    · refine .inl ⟨u, held, (Function.update_of_ne ?_ _ _).trans pc⟩
      rintro rfl
      exact before x y held pc
    · exact .inr consumer
    · exact .inl ⟨t, held, (Function.update_self _ _ _).trans pc⟩

theorem Inv.links_concat [DecidableEq Node] (inv : Inv stub s) (after : State Node Thread)
    {newNode : Node} (absent : newNode ∉ s.nodes) (next : after.next = s.next)
    (nodes : after.nodes = s.nodes ++ [newNode])
    (linking : ∀ x y, Linking stub after x y ↔
      Linking stub s x y ∨ (x = s.head ∧ y = newNode)) :
    (s.nodes ++ [newNode]).Nodup ∧
      (∀ x y, Follows after.nodes x y →
        after.next x = some y ∨ (after.next x = none ∧ Linking stub after x y)) ∧
      ∀ x y, Linking stub after x y → Follows after.nodes x y ∧ after.next x = none := by
  refine ⟨List.nodup_append.mpr ⟨inv.nodup, List.nodup_singleton _, ?_⟩, ?_, ?_⟩
  · intro x member y single
    rw [List.mem_singleton.mp single]
    rintro rfl
    exact absent member
  · intro x y follows
    rw [nodes] at follows
    rw [next, linking]
    rcases follows_concat.mp follows with ⟨last, rfl⟩ | inside
    · have same : x = s.head := Option.some.inj (last.symm.trans inv.last)
      exact .inr ⟨same ▸ inv.ends, .inr ⟨same, rfl⟩⟩
    · exact (inv.links x y inside).imp_right fun unlinked => ⟨unlinked.1, .inl unlinked.2⟩
  · intro x y links
    rw [next, nodes]
    rcases (linking x y).mp links with before | ⟨rfl, rfl⟩
    · obtain ⟨follows, null⟩ := inv.linking x y before
      exact ⟨follows_concat.mpr (.inr follows), null⟩
    · exact ⟨follows_concat.mpr (.inl ⟨inv.last, rfl⟩), inv.ends⟩

theorem Inv.links_join [DecidableEq Node] (inv : Inv stub s) (after : State Node Thread)
    {prev newNode : Node}     (links : Linking stub s prev newNode)
    (next : after.next = Function.update s.next prev (some newNode))
    (nodes : after.nodes = s.nodes)
    (linking : ∀ x y, Linking stub after x y ↔
      Linking stub s x y ∧ ¬(x = prev ∧ y = newNode)) :
    (∀ x y, Follows after.nodes x y →
        after.next x = some y ∨ (after.next x = none ∧ Linking stub after x y)) ∧
      ∀ x y, Linking stub after x y → Follows after.nodes x y ∧ after.next x = none := by
  obtain ⟨joined, null⟩ := inv.linking prev newNode links
  constructor
  · intro x y follows
    rw [nodes] at follows
    rw [next, linking]
    by_cases same : x = prev
    · subst same
      rw [Function.update_self, Follows.unique inv.nodup joined follows]
      exact .inl rfl
    · rw [Function.update_of_ne same]
      exact (inv.links x y follows).imp_right fun unlinked =>
        ⟨unlinked.1, unlinked.2, fun both => same both.1⟩
  · intro x y remains
    obtain ⟨before, other⟩ := (linking x y).mp remains
    obtain ⟨follows, unlinked⟩ := inv.linking x y before
    rw [nodes, next]
    have apart : x ≠ prev := by
      rintro rfl
      exact other ⟨rfl, Follows.unique inv.nodup follows joined⟩
    exact ⟨follows, (Function.update_of_ne apart _ _).trans unlinked⟩

end Links

section Pushes

variable {Node Thread : Type} [DecidableEq Node] [DecidableEq Thread] {stub : Node}
  {s after : State Node Thread} {t : Thread} {call : Push Node}

theorem Inv.push (inv : Inv stub s) (producer : after.producer = Function.update s.producer t call)
    (tail : after.tail = s.tail) (sameConsumer : after.consumer = s.consumer)
    (first : after.nodes.head? = some s.tail) (last : after.nodes.getLast? = some after.head)
    (nodup : after.nodes.Nodup)
    (links : ∀ x y, Follows after.nodes x y →
      after.next x = some y ∨ (after.next x = none ∧ Linking stub after x y))
    (linking : ∀ x y, Linking stub after x y → Follows after.nodes x y ∧ after.next x = none)
    (ends : after.next after.head = none)
    (others : ∀ u node, u ≠ t → s.producer u = .exchange node →
      node ∉ after.nodes ∧ after.next node = none)
    (own : ∀ node, call = .exchange node → node ∉ after.nodes ∧ after.next node = none)
    (named : ∀ node, call.newNode = some node → node ≠ stub ∧
      ∀ u, u ≠ t → (s.producer u).newNode ≠ some node)
    (contents : after.popped ++ after.nodes.filter (· ≠ stub) = after.pushed)
    (ok : PushOk stub call) (consumer : PopOk stub after s.consumer) : Inv stub after where
  first := tail ▸ first
  last := last
  nodup := nodup
  links := links
  linking := linking
  ends := ends
  ready u node pc := by
    rw [producer] at pc
    by_cases mine : u = t
    · rw [mine, Function.update_self] at pc
      exact own node pc
    · rw [Function.update_of_ne mine] at pc
      exact others u node mine pc
  given u node here := by
    rw [producer] at here
    by_cases mine : u = t
    · rw [mine, Function.update_self] at here
      exact (named node here).1
    · rw [Function.update_of_ne mine] at here
      exact inv.given u node here
  distinct u v node here there := by
    rw [producer] at here there
    by_cases mine : u = t
    · by_cases also : v = t
      · rw [mine, also]
      · rw [mine, Function.update_self] at here
        rw [Function.update_of_ne also] at there
        exact absurd there ((named node here).2 v also)
    · rw [Function.update_of_ne mine] at here
      by_cases also : v = t
      · rw [also, Function.update_self] at there
        exact absurd here ((named node there).2 u mine)
      · rw [Function.update_of_ne also] at there
        exact inv.distinct u v node here there
  contents := contents
  producers u := by
    rw [producer, Function.update_apply]
    split
    · exact ok
    · exact inv.producers u
  consumer := sameConsumer ▸ consumer

theorem Inv.begin (inv : Inv stub s) {newNode : Node} (free : (s.producer t).newNode = none)
    (own : newNode ≠ stub) (outside : newNode ∉ s.unpopped)
    (unclaimed : ∀ u, (s.producer u).newNode ≠ some newNode) :
    Inv stub { s with
      next := Function.update s.next newNode none
      producer := Function.update s.producer t (.exchange newNode) } := by
  have absent : newNode ∉ s.nodes := fun member =>
    outside (inv.mem_unpopped.mpr ⟨member, own⟩)
  have kept (x : Node) (member : x ∈ s.nodes) :
      Function.update s.next newNode none x = s.next x := by
    apply Function.update_of_ne
    rintro rfl
    exact absent member
  have before : ∀ x y held, s.producer t ≠ .link x y held := by
    intro x y held pc
    rw [pc] at free
    cases free
  have linking {x y : Node} : Linking stub { s with
      next := Function.update s.next newNode none
      producer := Function.update s.producer t (.exchange newNode) } x y ↔
      Linking stub s x y := by
    refine Iff.trans (linking_of_push (.exchange newNode) ?_ ?_ before) ?_
    · rfl
    · rfl
    · exact or_iff_left nofun
  refine inv.push rfl rfl rfl inv.first inv.last inv.nodup ?_ ?_ ?_ ?_ ?_ ?_ inv.contents
    trivial ?_
  · intro x y follows
    rw [linking]
    change Function.update s.next newNode none x = _ ∨
      Function.update s.next newNode none x = _ ∧ _
    rw [kept x follows.mem_first]
    exact inv.links x y follows
  · intro x y links
    have before := inv.linking x y (linking.mp links)
    exact ⟨before.1, (kept x before.1.mem_first).trans before.2⟩
  · exact (kept _ inv.head_mem).trans inv.ends
  · intro u node _ pc
    obtain ⟨out, null⟩ := inv.ready u node pc
    refine ⟨out, (Function.update_of_ne ?_ _ _).trans null⟩
    rintro rfl
    exact unclaimed u (by rw [pc]; rfl)
  · intro node pc
    cases pc
    exact ⟨absent, Function.update_self _ _ _⟩
  · intro node here
    cases here
    exact ⟨own, fun u _ => unclaimed u⟩
  · have consumer := inv.consumer
    cases pc : s.consumer with
    | stubExchange =>
        rw [pc] at consumer
        obtain ⟨away, out, null⟩ := consumer
        exact ⟨away, out, (Function.update_of_ne own.symm _ _).trans null⟩
    | idle | load | loadNext | loadHead | stubStore | stubLink | reload =>
        rw [pc] at consumer
        exact consumer
    | returned result =>
        rw [pc] at consumer
        cases result <;> exact consumer

theorem Inv.exchange (inv : Inv stub s) {newNode : Node}
    (pc : s.producer t = .exchange newNode) :
    Inv stub { s with
      head := newNode
      producer := Function.update s.producer t (.link s.head newNode (!s.unpopped.isEmpty))
      nodes := s.nodes ++ [newNode]
      pushed := s.pushed ++ [newNode] } := by
  obtain ⟨absent, null⟩ := inv.ready t newNode pc
  have own : newNode ≠ stub := inv.given t newNode (by rw [pc]; rfl)
  have before : ∀ x y held, s.producer t ≠ .link x y held := by
    intro x y held other
    cases pc.symm.trans other
  obtain ⟨nodup, links, linking⟩ := inv.links_concat { s with
      head := newNode
      producer := Function.update s.producer t (.link s.head newNode (!s.unpopped.isEmpty))
      nodes := s.nodes ++ [newNode]
      pushed := s.pushed ++ [newNode] } absent rfl rfl fun x y => by
    refine Iff.trans (linking_of_push (.link s.head newNode (!s.unpopped.isEmpty)) ?_ ?_ before)
      (or_congr_right ⟨?_, ?_⟩)
    · rfl
    · rfl
    · rintro ⟨held, same⟩
      cases same
      exact ⟨rfl, rfl⟩
    · rintro ⟨rfl, rfl⟩
      exact ⟨_, rfl⟩
  refine inv.push rfl rfl rfl ?_ List.getLast?_concat nodup links linking null ?_ nofun ?_ ?_ ?_ ?_
  · rw [List.head?_append, inv.first]
    rfl
  · intro u node apart other
    obtain ⟨out, unlinked⟩ := inv.ready u node other
    refine ⟨?_, unlinked⟩
    rw [List.mem_append, List.mem_singleton]
    rintro (inside | rfl)
    · exact out inside
    · exact apart (inv.distinct u t node (by rw [other]; rfl) (by rw [pc]; rfl))
  · intro node here
    cases here
    refine ⟨own, fun u apart there => apart ?_⟩
    exact inv.distinct u t newNode there (by rw [pc]; rfl)
  · change s.popped ++ (s.nodes ++ [newNode]).filter (· ≠ stub) = s.pushed ++ [newNode]
    rw [List.filter_append, ← List.append_assoc, inv.contents]
    simp [own]
  · intro away
    have held : s.unpopped ≠ [] :=
      List.ne_nil_of_mem (inv.mem_unpopped.mpr ⟨inv.head_mem, away⟩)
    simpa using held
  · have consumer := inv.consumer
    cases pcPop : s.consumer with
    | stubStore =>
        rw [pcPop] at consumer
        refine ⟨consumer.1, ?_⟩
        simpa [own.symm] using consumer.2
    | stubExchange =>
        rw [pcPop] at consumer
        refine ⟨consumer.1, ?_, consumer.2.2⟩
        simpa [own.symm] using consumer.2.1
    | stubLink | reload =>
        rw [pcPop] at consumer
        exact ⟨consumer.1, List.mem_append_left _ consumer.2⟩
    | idle | load | loadNext | loadHead =>
        rw [pcPop] at consumer
        exact consumer
    | returned result =>
        rw [pcPop] at consumer
        cases result <;> exact consumer

theorem Inv.link (inv : Inv stub s) {prev newNode : Node} {held : Bool}
    (pc : s.producer t = .link prev newNode held) :
    Inv stub { s with
      next := Function.update s.next prev (some newNode)
      producer := Function.update s.producer t (.returned (decide (prev = stub)) held) } := by
  have mine : Linking stub s prev newNode := .inl ⟨t, held, pc⟩
  obtain ⟨joined, null⟩ := inv.linking prev newNode mine
  have own : newNode ≠ stub := inv.given t newNode (by rw [pc]; rfl)
  have apart : prev ≠ s.head := by
    rintro rfl
    exact joined.ne_last inv.nodup inv.last
  obtain ⟨links, linking⟩ := inv.links_join { s with
      next := Function.update s.next prev (some newNode)
      producer := Function.update s.producer t (.returned (decide (prev = stub)) held) }
    mine rfl rfl fun x y => by
    constructor
    · rintro (⟨u, other, here⟩ | ⟨here, same⟩)
      · change Function.update s.producer t _ u = _ at here
        by_cases also : u = t
        · rw [also, Function.update_self] at here
          cases here
        · rw [Function.update_of_ne also] at here
          refine ⟨.inl ⟨u, other, here⟩, ?_⟩
          rintro ⟨rfl, rfl⟩
          exact also (inv.distinct u t y (by rw [here]; rfl) (by rw [pc]; rfl))
      · refine ⟨.inr ⟨here, same⟩, ?_⟩
        rintro ⟨_, rfl⟩
        exact own same
    · rintro ⟨⟨u, other, here⟩ | consumer, differ⟩
      · refine .inl ⟨u, other, (Function.update_of_ne ?_ _ _).trans here⟩
        rintro rfl
        cases pc.symm.trans here
        exact differ ⟨rfl, rfl⟩
      · exact .inr consumer
  refine inv.push rfl rfl rfl inv.first inv.last inv.nodup links linking ?_ ?_ nofun nofun
    inv.contents ?_ ?_
  · exact (Function.update_of_ne apart.symm _ _).trans inv.ends
  · intro u node _ other
    obtain ⟨out, unlinked⟩ := inv.ready u node other
    refine ⟨out, (Function.update_of_ne ?_ _ _).trans unlinked⟩
    rintro rfl
    exact out joined.mem_first
  · intro empty
    have ok := inv.producers t
    rw [pc] at ok
    exact ok (by simpa using empty)
  · have consumer := inv.consumer
    cases pcPop : s.consumer with
    | stubExchange =>
        rw [pcPop] at consumer
        obtain ⟨away, out, unlinked⟩ := consumer
        refine ⟨away, out, (Function.update_of_ne ?_ _ _).trans unlinked⟩
        rintro rfl
        exact out joined.mem_first
    | idle | load | loadNext | loadHead | stubStore | stubLink | reload =>
        rw [pcPop] at consumer
        exact consumer
    | returned result =>
        rw [pcPop] at consumer
        cases result <;> exact consumer

theorem PushStep.inv (inv : Inv stub s) (step : PushStep stub s t after) : Inv stub after := by
  cases step with
  | begin free own outside unclaimed => exact inv.begin free own outside unclaimed
  | exchange pc => exact inv.exchange pc
  | link pc => exact inv.link pc

end Pushes

end NgrCore.MpscQueue
