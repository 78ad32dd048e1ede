import Mathlib.Data.List.Induction
import NgrCore.Library.Transition
import NgrCore.IntrusiveQueue
import NgrCore.IoringTask
import NgrCore.SegmentArray

/-!
Owns the remote queues of a scheduler at the level of their pointers: producers
in `__atomic_intrusive_queue::_M_push_front`, the scheduler's thread in
`_M_accept_remote_request`, and the two pending queues it fills. All lists share
the one link field of every task.

Proves that every queue is drained in the order of the successful
compare-exchanges, that what is drained reaches the end of a pending queue once,
and that the pending queues are well formed throughout.
-/

namespace NgrCore.RemoteQueue

open NgrCore.Library

/-- The two pairs of a `__remote_task_queue` and a pending queue: `__io_remote_`
with `__io_pending_`, and `__dr_remote_` with `__dr_pending_`. -/
inductive Kind
  | io
  | dr
deriving Repr, DecidableEq

/-- The queues registered with `__array_._M_push_back`, in order. -/
structure Config where
  max : Nat
  remote : Kind → SegmentArray Nat max
  registered : Kind → List Nat
  holds : ∀ kind, (remote kind).Holds (registered kind)

/-- Where a call of `_M_push_front` stands. `link` follows a load of the head,
`returned` holds the result. -/
inductive CallPc
  | idle
  | load
  | link (old : Option Addr)
  | returned (wasEmpty : Bool)
deriving Repr, DecidableEq

/-- A call of `_M_push_front` with its arguments. -/
structure Call where
  queue : Nat := 0
  node : Addr := 0
  pc : CallPc := .idle
deriving Repr, DecidableEq

/-- Where the scheduler's thread stands. `fold` is the loop of
`_M_fold_inplace` with the queues to visit and `__init`, `reset` the loop of
`_M_reset` on one of them. -/
inductive Pc
  | idle
  | fold (kind : Kind) (todo : List Nat) (init : IntrusiveQueue Addr)
  | reset (kind : Kind) (queue : Nat) (todo : List Nat) (old : Option Addr)
      (init : IntrusiveQueue Addr)
deriving Repr, DecidableEq

inductive Place
  | call (index : Nat)
  | queue (index : Nat)
  | init
  | pending (kind : Kind)
deriving Repr, DecidableEq

/-- What is done to a pending queue: an `_M_append` of drained nodes, a local
submit at the front, or a node taken off the front. -/
inductive Event
  | append (nodes : List Addr)
  | submit (node : Addr)
  | pop (node : Addr)
deriving Repr, DecidableEq

/-- What happened so far: `pushed` lists the successful compare-exchanges on each
queue, `drains` what each `_M_pop_swap_reversed` returned, and `history` what was
done to a pending queue. `stack`, `collected` and `contents` are the lists that
the heads, `__init` and the pending queues should stand for; `place` says which
list a node belongs to, and `atBegin` how many pushes preceded the current
`_M_accept_remote_request`. -/
structure Log where
  pushed : Nat → List Addr := fun _ => []
  drains : List (Kind × Nat × List Addr) := []
  stack : Nat → List Addr := fun _ => []
  collected : List Addr := []
  contents : Kind → List Addr := fun _ => []
  history : Kind → List Event := fun _ => []
  place : Addr → Option Place := fun _ => none
  atBegin : Nat → Nat := fun _ => 0

structure State where
  next : Links Addr
  head : Nat → Option Addr := fun _ => none
  pending : Kind → IntrusiveQueue Addr := fun _ => {}
  call : Nat → Call := fun _ => {}
  pc : Pc := .idle
  log : Log := {}

/-- `_M_push_front`. Every load and compare-exchange of the head is a step; the
store to the node's own link belongs to the step that read the head. A node
links one list at a time, so it is pushed only when it is in none. -/
inductive PushStep : State → State → Prop
  | begin {s : State} (i queue : Nat) (node : Addr) (idle : (s.call i).pc = .idle)
      (free : s.log.place node = none) :
      PushStep s { s with
        call := Function.update s.call i { queue := queue, node := node, pc := .load }
        log.place := Function.update s.log.place node (some (.call i)) }
  | load {s : State} (i : Nat) (pc : (s.call i).pc = .load) :
      PushStep s { s with
        next := Function.update s.next (s.call i).node (s.head (s.call i).queue)
        call := Function.update s.call i
          { s.call i with pc := .link (s.head (s.call i).queue) } }
  | retry {s : State} {old : Option Addr} (i : Nat) (pc : (s.call i).pc = .link old) :
      PushStep s { s with
        next := Function.update s.next (s.call i).node (s.head (s.call i).queue)
        call := Function.update s.call i
          { s.call i with pc := .link (s.head (s.call i).queue) } }
  | link {s : State} {old : Option Addr} (i : Nat) (pc : (s.call i).pc = .link old)
      (unchanged : s.head (s.call i).queue = old) :
      PushStep s { s with
        head := Function.update s.head (s.call i).queue (some (s.call i).node)
        call := Function.update s.call i { s.call i with pc := .returned old.isNone }
        log.pushed := Function.update s.log.pushed (s.call i).queue
          (s.log.pushed (s.call i).queue ++ [(s.call i).node])
        log.stack := Function.update s.log.stack (s.call i).queue
          ((s.call i).node :: s.log.stack (s.call i).queue)
        log.place := Function.update s.log.place (s.call i).node
          (some (.queue (s.call i).queue)) }
  | leave {s : State} {wasEmpty : Bool} (i : Nat) (pc : (s.call i).pc = .returned wasEmpty) :
      PushStep s { s with call := Function.update s.call i {} }

/-- The statements of `_M_accept_remote_request`, in order. -/
def afterAppend (config : Config) : Kind → Pc
  | .io => .fold .dr (config.remote .dr).visits {}
  | .dr => .idle

/-- `_M_accept_remote_request`. The detached list belongs to the thread alone, so
`__create_reversed` and `_M_append` run in the step that detaches it. -/
inductive AcceptStep (config : Config) : State → State → Prop
  | begin {s : State} (pc : s.pc = .idle) :
      AcceptStep config s { s with
        pc := .fold .io (config.remote .io).visits {}
        log.atBegin := fun queue => (s.log.pushed queue).length }
  | load {s : State} {kind : Kind} {queue : Nat} {todo : List Nat} {init : IntrusiveQueue Addr}
      (pc : s.pc = .fold kind (queue :: todo) init) :
      AcceptStep config s { s with pc := .reset kind queue todo (s.head queue) init }
  | retry {s : State} {kind : Kind} {queue : Nat} {todo : List Nat} {old : Option Addr}
      {init : IntrusiveQueue Addr} (pc : s.pc = .reset kind queue todo old init) :
      AcceptStep config s { s with pc := .reset kind queue todo (s.head queue) init }
  | take {s : State} {kind : Kind} {queue : Nat} {todo : List Nat} {old : Option Addr}
      {init reversed longer : IntrusiveQueue Addr} {fuel : Nat} {links links' : Links Addr}
      {taken : List Addr} (pc : s.pc = .reset kind queue todo old init)
      (unchanged : s.head queue = old)
      (created : IntrusiveQueue.createReversed s.next fuel old = some (links, reversed))
      (returned : Chain links reversed.head taken)
      (appended : init.append links reversed = some (links', longer)) :
      AcceptStep config s { s with
        next := links'
        head := Function.update s.head queue none
        pc := .fold kind todo longer
        log.drains := s.log.drains ++ [(kind, queue, taken)]
        log.stack := Function.update s.log.stack queue []
        log.collected := s.log.collected ++ taken
        log.place := fun node => if node ∈ taken then some .init else s.log.place node }
  | append {s : State} {kind : Kind} {init longer : IntrusiveQueue Addr} {links : Links Addr}
      (pc : s.pc = .fold kind [] init)
      (appended : (s.pending kind).append s.next init = some (links, longer)) :
      AcceptStep config s { s with
        next := links
        pending := Function.update s.pending kind longer
        pc := afterAppend config kind
        log.collected := []
        log.contents := Function.update s.log.contents kind
          (s.log.contents kind ++ s.log.collected)
        log.history := Function.update s.log.history kind
          (s.log.history kind ++ [.append s.log.collected])
        log.place := fun node =>
          if node ∈ s.log.collected then some (.pending kind) else s.log.place node }

/-- What the scheduler's thread does with the pending queues between two
`_M_accept_remote_request` calls: it takes nodes off the front, and a local
`_M_submit` puts one there. -/
inductive PendingStep : State → State → Prop
  | popFront {s : State} {node : Addr} {rest : IntrusiveQueue Addr} (kind : Kind)
      (pc : s.pc = .idle) (popped : (s.pending kind).popFront s.next = (some node, rest)) :
      PendingStep s { s with
        pending := Function.update s.pending kind rest
        log.contents := Function.update s.log.contents kind (s.log.contents kind).tail
        log.history := Function.update s.log.history kind (s.log.history kind ++ [.pop node])
        log.place := Function.update s.log.place node none }
  | submit {s : State} (node : Addr) (pc : s.pc = .idle) (free : s.log.place node = none) :
      PendingStep s { s with
        next := ((s.pending .io).pushFront s.next node).1
        pending := Function.update s.pending .io ((s.pending .io).pushFront s.next node).2
        log.contents := Function.update s.log.contents .io (node :: s.log.contents .io)
        log.history := Function.update s.log.history .io (s.log.history .io ++ [.submit node])
        log.place := Function.update s.log.place node (some (.pending .io)) }

inductive Step (config : Config) : State → Unit → State → Prop
  | push {s next : State} : PushStep s next → Step config s () next
  | accept {s next : State} : AcceptStep config s next → Step config s () next
  | pending {s next : State} : PendingStep s next → Step config s () next

/-- Any number of producers and the scheduler's thread, interleaved, from empty
queues and any contents of the link fields. -/
def system (config : Config) : System State Unit where
  Init s := ∃ links, s = { next := links }
  Step := Step config

/-! ### The lists -/

/-- The node whose link field a call is using. -/
def Call.holding (call : Call) : Option Addr :=
  match call.pc with
  | .load => some call.node
  | .link _ => some call.node
  | _ => none

def Pc.init : Pc → IntrusiveQueue Addr
  | .idle => {}
  | .fold _ _ init => init
  | .reset _ _ _ _ init => init

/-- The list at a place holds the node. -/
def State.Lists (s : State) : Place → Addr → Prop
  | .call i, node => (s.call i).holding = some node
  | .queue queue, node => node ∈ s.log.stack queue
  | .init, node => node ∈ s.log.collected
  | .pending kind, node => node ∈ s.log.contents kind

/-- Every node is in the one list the log places it in. -/
def Placed (s : State) : Prop :=
  ∀ place node, s.Lists place node ↔ s.log.place node = some place

/-- The links of a memory hold the lists of the log. -/
structure Linked (next : Links Addr) (s : State) : Prop where
  head : ∀ queue, Chain next (s.head queue) (s.log.stack queue)
  init : s.pc.init.Represents next s.log.collected
  pending : ∀ kind, (s.pending kind).Represents next (s.log.contents kind)

/-- The memory holds the lists of the log, and a call about to exchange the
head has linked its node to the head it expects. -/
structure Inv (s : State) : Prop where
  placed : Placed s
  linked : Linked s.next s
  expects : ∀ i old, (s.call i).pc = .link old → s.next (s.call i).node = old

section Steps

variable {config : Config} {s next : State}

theorem Placed.move {node : Addr} {target : Option Place} (placed : Placed s)
    (moved : next.log.place = Function.update s.log.place node target)
    (there : ∀ place, next.Lists place node ↔ target = some place)
    (others : ∀ place other, other ≠ node → (next.Lists place other ↔ s.Lists place other)) :
    Placed next := by
  intro place other
  rw [moved]
  by_cases same : other = node
  · rw [same, Function.update_self]
    exact there place
  · rw [Function.update_of_ne same, others place other same]
    exact placed place other

theorem Placed.only {node : Addr} (placed : Placed s) (place other : Place)
    (here : s.Lists place node) (there : s.Lists other node) : place = other :=
  Option.some.inj (((placed place node).mp here).symm.trans ((placed other node).mp there))

theorem State.lists_link {i : Nat} {old : Option Addr} (pc : (s.call i).pc = .link old) :
    s.Lists (.call i) (s.call i).node := by
  show (s.call i).holding = _
  rw [Call.holding, pc]

/-- Writing the link of a node outside the linked lists keeps them. -/
theorem Linked.write {node : Addr} (linked : Linked s.next s) (value : Option Addr)
    (outside : ∀ place, (∀ i, place ≠ .call i) → ¬ s.Lists place node) :
    Linked (Function.update s.next node value) s := by
  constructor
  · intro queue
    exact (linked.head queue).update value (outside (.queue queue) nofun)
  · exact linked.init.congr fun other member =>
      Function.update_of_ne (ne_of_mem_of_not_mem member (outside .init nofun)) _ _
  · intro kind
    exact (linked.pending kind).congr fun other member =>
      Function.update_of_ne (ne_of_mem_of_not_mem member (outside (.pending kind) nofun)) _ _

/-- A call reads the head and links its node to it. -/
theorem Inv.relink (inv : Inv s) {i : Nat} (holds : s.Lists (.call i) (s.call i).node) :
    Inv { s with
      next := Function.update s.next (s.call i).node (s.head (s.call i).queue)
      call := Function.update s.call i
        { s.call i with pc := .link (s.head (s.call i).queue) } } := by
  rcases inv with ⟨placed, linked, expects⟩
  have outside : ∀ place, (∀ j, place ≠ .call j) → ¬ s.Lists place (s.call i).node :=
    fun place listed there => listed i (placed.only _ _ there holds)
  have written := linked.write (s.head (s.call i).queue) outside
  refine ⟨?_, ⟨written.head, written.init, written.pending⟩, ?_⟩
  · intro place node
    rw [← placed place node]
    cases place <;> grind [State.Lists, Call.holding]
  · intro j old pc
    have apart : j ≠ i → (s.call j).pc = .link old → (s.call j).node ≠ (s.call i).node := by
      intro different theirs same
      have also : s.Lists (.call j) (s.call i).node := same ▸ s.lists_link theirs
      exact different (Place.call.inj (placed.only _ _ also holds))
    grind

theorem PushStep.inv (step : PushStep s next) (inv : Inv s) : Inv next := by
  cases step with
  | begin i queue node idle free =>
      rcases inv with ⟨placed, linked, expects⟩
      have nowhere : ∀ place, ¬ s.Lists place node := by
        intro place listed
        rw [placed, free] at listed
        exact absurd listed nofun
      refine ⟨placed.move rfl ?_ ?_, ⟨linked.head, linked.init, linked.pending⟩, ?_⟩
      · intro place
        have before := nowhere place
        cases place <;> grind [State.Lists, Call.holding]
      · intro place other different
        cases place <;> grind [State.Lists, Call.holding]
      · grind
  | load i pc => exact inv.relink (by rw [State.Lists, Call.holding, pc])
  | retry i pc => exact inv.relink (by rw [State.Lists, Call.holding, pc])
  | @link old i pc unchanged =>
      rcases inv with ⟨placed, linked, expects⟩
      have holds := s.lists_link pc
      refine ⟨placed.move rfl ?_ ?_, ⟨?_, linked.init, linked.pending⟩, ?_⟩
      · intro place
        have only : s.Lists place (s.call i).node → place = .call i :=
          fun there => placed.only _ _ there holds
        cases place <;> grind [State.Lists, Call.holding]
      · intro place other different
        cases place <;> grind [State.Lists, Call.holding]
      · intro queue
        have chain := linked.head queue
        have expected := expects i old pc
        by_cases same : queue = (s.call i).queue
        · subst same
          simp only [Function.update_self]
          exact ⟨rfl, by rw [expected, ← unchanged]; exact chain⟩
        · simp only [Function.update_of_ne same]
          exact chain
      · grind
  | leave i pc =>
      rcases inv with ⟨placed, linked, expects⟩
      refine ⟨?_, ⟨linked.head, linked.init, linked.pending⟩, ?_⟩
      · intro place node
        rw [← placed place node]
        cases place <;> grind [State.Lists, Call.holding]
      · grind

theorem Inv.move (inv : Inv s) {pc : Pc} {atBegin : Nat → Nat} (init : pc.init = s.pc.init) :
    Inv { s with pc := pc, log.atBegin := atBegin } := by
  rcases inv with ⟨placed, linked, expects⟩
  exact ⟨placed, ⟨linked.head, init ▸ linked.init, linked.pending⟩, expects⟩

theorem AcceptStep.inv (step : AcceptStep config s next) (inv : Inv s) : Inv next := by
  cases step with
  | begin pc => exact inv.move (by rw [pc]; rfl)
  | load pc => exact inv.move (by rw [pc]; rfl)
  | retry pc => exact inv.move (by rw [pc]; rfl)
  | @take kind queue todo old init reversed longer fuel links links' taken pc unchanged created
      returned appended =>
      rcases inv with ⟨placed, linked, expects⟩
      have detached := linked.head queue
      rw [unchanged] at detached
      rcases IntrusiveQueue.createReversed_eq detached created with ⟨drained, kept⟩
      have all : taken = (s.log.stack queue).reverse := returned.unique drained.1
      subst all
      have collecting : init.Represents s.next s.log.collected := by
        have whole := linked.init
        rw [pc] at whole
        exact whole
      have apart : ∀ node ∈ s.log.collected, node ∉ s.log.stack queue := fun node here there =>
        absurd (placed.only .init (.queue queue) here there) nofun
      rcases (collecting.congr fun node member => kept node (apart node member)).append drained
        (by simpa using apart) with ⟨links'', longer', result, collected, kept'⟩
      rw [appended] at result
      cases result
      have unlinked : ∀ place node, s.Lists place node → place ≠ .init → place ≠ .queue queue →
          links' node = s.next node := by
        intro place node here init other
        rw [kept' node fun there => init (placed.only _ .init here there),
          kept node fun there => other (placed.only _ (.queue queue) here there)]
      refine ⟨?_, ⟨?_, collected, ?_⟩, ?_⟩
      · intro place node
        have before := placed place node
        have here := placed (.queue queue) node
        cases place <;> grind [State.Lists]
      · intro other
        by_cases same : other = queue
        · subst same
          simp only [Function.update_self]
          rfl
        · simp only [Function.update_of_ne same]
          exact (linked.head other).congr fun node member =>
            unlinked (.queue other) node member nofun (by simpa using same)
      · intro kind
        exact (linked.pending kind).congr fun node member =>
          unlinked (.pending kind) node member nofun nofun
      · intro i old position
        rw [← expects i old position]
        exact unlinked (.call i) _ (s.lists_link position) nofun nofun
  | @append kind init longer links pc appended =>
      rcases inv with ⟨placed, linked, expects⟩
      have collecting : init.Represents s.next s.log.collected := by
        have whole := linked.init
        rw [pc] at whole
        exact whole
      have apart : ∀ node ∈ s.log.contents kind, node ∉ s.log.collected := fun node here there =>
        absurd (placed.only (.pending kind) .init here there) nofun
      rcases (linked.pending kind).append collecting apart with
        ⟨links', longer', result, joined, kept⟩
      rw [appended] at result
      cases result
      have unlinked : ∀ place node, s.Lists place node → place ≠ .pending kind →
          links node = s.next node := fun place node here other =>
        kept node fun there => other (placed.only _ (.pending kind) here there)
      refine ⟨?_, ⟨?_, ?_, ?_⟩, ?_⟩
      · intro place node
        have before := placed place node
        have here := placed .init node
        cases place <;> grind [State.Lists]
      · intro queue
        exact (linked.head queue).congr fun node member =>
          unlinked (.queue queue) node member nofun
      · cases kind <;> exact IntrusiveQueue.represents_empty
      · intro other
        by_cases same : other = kind
        · subst same
          simpa only [Function.update_self] using joined
        · simp only [Function.update_of_ne same]
          exact (linked.pending other).congr fun node member =>
            unlinked (.pending other) node member (by simpa using same)
      · intro i old position
        rw [← expects i old position]
        exact unlinked (.call i) _ (s.lists_link position) nofun

theorem PendingStep.inv (step : PendingStep s next) (inv : Inv s) : Inv next := by
  rcases inv with ⟨placed, linked, expects⟩
  cases step with
  | @popFront node rest kind pc popped =>
      have queue := linked.pending kind
      cases contents : s.log.contents kind with
      | nil =>
          rw [contents] at queue
          have empty : (s.pending kind).head = none := queue.1
          rw [IntrusiveQueue.popFront, empty] at popped
          cases congrArg Prod.fst popped
      | cons first others =>
          rw [contents] at queue
          rcases queue.popFront with ⟨front, shorter⟩
          rw [popped] at front shorter
          cases front
          have fresh := (List.nodup_cons.mp queue.1.nodup).1
          have here : s.Lists (.pending kind) node := by simp [State.Lists, contents]
          refine ⟨placed.move rfl ?_ ?_, ⟨linked.head, linked.init, ?_⟩, expects⟩
          · intro place
            have only : s.Lists place node → place = .pending kind :=
              fun there => placed.only _ _ there here
            cases place <;> grind [State.Lists]
          · intro place other different
            cases place <;> grind [State.Lists]
          · intro other
            by_cases same : other = kind
            · subst same
              simpa only [Function.update_self, contents, List.tail_cons] using shorter
            · simpa only [Function.update_of_ne same] using linked.pending other
  | submit node pc free =>
      have nowhere : ∀ place, ¬ s.Lists place node := by
        intro place listed
        rw [placed, free] at listed
        cases listed
      have written := linked.write (s.pending .io).head fun place _ => nowhere place
      refine ⟨placed.move rfl ?_ ?_, ⟨written.head, written.init, ?_⟩, ?_⟩
      · intro place
        have before := nowhere place
        cases place <;> grind [State.Lists]
      · intro place other different
        cases place <;> grind [State.Lists]
      · intro other
        by_cases same : other = .io
        · subst same
          simpa only [Function.update_self] using
            (linked.pending .io).pushFront (nowhere (.pending .io))
        · simp only [Function.update_of_ne same]
          exact written.pending other
      · intro i old position
        have apart : (s.call i).node ≠ node := by
          rintro rfl
          exact nowhere (.call i) (s.lists_link position)
        exact (Function.update_of_ne apart _ _).trans (expects i old position)

theorem reachable_inv (reachable : (system config).Reachable s) : Inv s := by
  apply reachable.invariant Inv
  · intro state start
    rcases start with ⟨links, rfl⟩
    refine ⟨?_, ⟨fun _ => rfl, IntrusiveQueue.represents_empty,
      fun _ => IntrusiveQueue.represents_empty⟩, nofun⟩
    intro place node
    cases place <;> simp [State.Lists, Call.holding]
  · intro state label next earlier inv step
    cases step with
    | push step => exact step.inv inv
    | accept step => exact step.inv inv
    | pending step => exact step.inv inv

end Steps

section Enabled

variable {config : Config} {s : State} {kind : Kind} {init : IntrusiveQueue Addr}

/-- Neither the reversal nor the append of a visit follows a null pointer. -/
theorem take_enabled {queue : Nat} {todo : List Nat} (reachable : (system config).Reachable s)
    (pc : s.pc = .reset kind queue todo (s.head queue) init) :
    ∃ next longer, AcceptStep config s next ∧ next.pc = .fold kind todo longer := by
  rcases reachable_inv reachable with ⟨placed, linked, _⟩
  have collecting := linked.init
  rw [pc] at collecting
  have apart : ∀ node ∈ s.log.collected, node ∉ s.log.stack queue := fun node here there =>
    absurd (placed.only .init (.queue queue) here there) nofun
  rcases IntrusiveQueue.createReversed_spec _ (Nat.le_refl _) (linked.head queue) with
    ⟨links, reversed, created, drained, kept⟩
  rcases (collecting.congr fun node member => kept node (apart node member)).append drained
    (by simpa using apart) with ⟨links', longer, appended, _, _⟩
  exact ⟨_, longer, .take pc rfl created drained.1 appended, rfl⟩

theorem append_enabled (reachable : (system config).Reachable s)
    (pc : s.pc = .fold kind [] init) :
    ∃ next, AcceptStep config s next ∧ next.pc = afterAppend config kind := by
  rcases reachable_inv reachable with ⟨placed, linked, _⟩
  have collecting := linked.init
  rw [pc] at collecting
  have apart : ∀ node ∈ s.log.contents kind, node ∉ s.log.collected := fun node here there =>
    absurd (placed.only (.pending kind) .init here there) nofun
  rcases (linked.pending kind).append collecting apart with ⟨links, longer, appended, _, _⟩
  exact ⟨_, .append pc appended, rfl⟩

end Enabled

/-! ### What was drained -/

/-- What the drains took from a queue, in order. -/
def drainedFrom (drains : List (Kind × Nat × List Addr)) (queue : Nat) : List Addr :=
  drains.flatMap fun drain => if drain.2.1 = queue then drain.2.2 else []

/-- What the drains took for a pending queue, in order. -/
def drainedTo (drains : List (Kind × Nat × List Addr)) (kind : Kind) : List Addr :=
  drains.flatMap fun drain => if drain.1 = kind then drain.2.2 else []

@[simp] theorem drainedFrom_concat (drains : List (Kind × Nat × List Addr)) (kind : Kind)
    (queue other : Nat) (taken : List Addr) :
    drainedFrom (drains ++ [(kind, queue, taken)]) other =
      drainedFrom drains other ++ if queue = other then taken else [] := by
  simp [drainedFrom]

@[simp] theorem drainedTo_concat (drains : List (Kind × Nat × List Addr)) (kind other : Kind)
    (queue : Nat) (taken : List Addr) :
    drainedTo (drains ++ [(kind, queue, taken)]) other =
      drainedTo drains other ++ if kind = other then taken else [] := by
  simp [drainedTo]

/-- The pending queue after an event. Only its front node can be taken. -/
def Event.apply : List Addr → Event → Option (List Addr)
  | contents, .append nodes => some (contents ++ nodes)
  | contents, .submit node => some (node :: contents)
  | [], .pop _ => none
  | first :: rest, .pop node => if first = node then some rest else none

/-- The pending queue that a history leaves, from an empty one. -/
def replay (history : List Event) : Option (List Addr) := history.foldlM Event.apply []

/-- What a history appended, in order. -/
def appendedBy (history : List Event) : List Addr :=
  history.flatMap fun | .append nodes => nodes | _ => []

theorem appendedBy_append (front back : List Event) :
    appendedBy (front ++ back) = appendedBy front ++ appendedBy back :=
  List.flatMap_append

/-- What a history submitted. -/
def submittedBy (history : List Event) : List Addr :=
  history.flatMap fun | .submit node => [node] | _ => []

/-- What a history took. -/
def takenBy (history : List Event) : List Addr :=
  history.flatMap fun | .pop node => [node] | _ => []

theorem replay_concat (history : List Event) (event : Event) :
    replay (history ++ [event]) = (replay history).bind fun contents => event.apply contents := by
  simp [replay, List.foldlM_append, Option.bind_eq_bind]

/-- A pending queue holds what was appended and submitted, less what was taken. -/
theorem balance_of_replay {history : List Event} {contents : List Addr}
    (replayed : replay history = some contents) :
    (takenBy history ++ contents).Perm (submittedBy history ++ appendedBy history) := by
  induction history using List.reverseRecOn generalizing contents with
  | nil =>
      cases replayed
      exact .refl _
  | append_singleton history event ih =>
      rw [replay_concat] at replayed
      cases before : replay history with
      | none => simp [before] at replayed
      | some earlier =>
          have balance := ih before
          rw [before] at replayed
          cases event with
          | append nodes =>
              obtain rfl : earlier ++ nodes = contents := by simpa [Event.apply] using replayed
              have longer := balance.append_right nodes
              simpa [takenBy, submittedBy, appendedBy] using longer
          | submit node =>
              obtain rfl : node :: earlier = contents := by simpa [Event.apply] using replayed
              have longer := balance.cons node
              have front : (takenBy history ++ node :: earlier).Perm
                  (node :: (takenBy history ++ earlier)) := List.perm_middle
              have inserted : (submittedBy history ++ node :: appendedBy history).Perm
                  (node :: (submittedBy history ++ appendedBy history)) := List.perm_middle
              have moved := (front.trans longer).trans inserted.symm
              simpa [takenBy, submittedBy, appendedBy] using moved
          | pop node =>
              cases earlier with
              | nil => simp [Event.apply] at replayed
              | cons first rest =>
                  have same : first = node ∧ rest = contents := by
                    simpa [Event.apply] using replayed
                  rcases same with ⟨rfl, rfl⟩
                  simpa [takenBy, submittedBy, appendedBy] using balance

/-- The pending queue the current fold collects for. -/
def Pc.kind : Pc → Option Kind
  | .idle => none
  | .fold kind _ _ => some kind
  | .reset kind _ _ _ _ => some kind

/-- The queues the current fold still has to drain. -/
def Pc.todo : Pc → List Nat
  | .idle => []
  | .fold _ todo _ => todo
  | .reset _ queue todo _ _ => queue :: todo

/-- The registered queues that the current `_M_accept_remote_request` still has
to drain. -/
def Pc.unvisited (config : Config) (pc : Pc) (kind : Kind) : List Nat :=
  if pc.kind = some kind then pc.todo
  else if pc.kind = some .io then config.registered kind
  else []

/-- Nothing is lost or taken twice: what was pushed is what was drained and what
still hangs on the head; what was drained is what was appended to a pending queue
and what the current fold holds; a pending queue holds what its history leaves;
and the queues already visited gave up everything pushed before. -/
structure History (config : Config) (s : State) : Prop where
  inOrder : ∀ queue,
    s.log.pushed queue = drainedFrom s.log.drains queue ++ (s.log.stack queue).reverse
  arrived : ∀ kind, drainedTo s.log.drains kind =
    appendedBy (s.log.history kind) ++ if s.pc.kind = some kind then s.log.collected else []
  replayed : ∀ kind, replay (s.log.history kind) = some (s.log.contents kind)
  before : ∀ queue, s.log.atBegin queue ≤ (s.log.pushed queue).length
  visited : ∀ kind, ∀ queue ∈ config.registered kind, queue ∉ s.pc.unvisited config kind →
    s.log.atBegin queue ≤ (drainedFrom s.log.drains queue).length
  idle : s.pc = .idle → s.log.collected = []

section Drains

variable {config : Config} {s next : State}

/-- An event on one pending queue leaves the other as it was. -/
theorem replayed_event {kind : Kind} {event : Event} {after : List Addr}
    (replayed : ∀ other, replay (s.log.history other) = some (s.log.contents other))
    (applied : event.apply (s.log.contents kind) = some after) (other : Kind) :
    replay (Function.update s.log.history kind (s.log.history kind ++ [event]) other) =
      some (Function.update s.log.contents kind after other) := by
  by_cases same : other = kind
  · subst same
    simp [replay_concat, replayed, applied]
  · simp only [Function.update_of_ne same]
    exact replayed other

/-- An event that appends nothing keeps what was drained accounted for. -/
theorem arrived_event {kind : Kind} {event : Event} {pc : Pc} {collected : List Addr}
    (arrived : ∀ other, drainedTo s.log.drains other =
      appendedBy (s.log.history other) ++ if pc.kind = some other then collected else [])
    (nothing : appendedBy [event] = []) (other : Kind) :
    drainedTo s.log.drains other =
      appendedBy (Function.update s.log.history kind (s.log.history kind ++ [event]) other) ++
        if pc.kind = some other then collected else [] := by
  by_cases same : other = kind
  · subst same
    rw [Function.update_self, appendedBy_append, nothing, List.append_nil]
    exact arrived other
  · rw [Function.update_of_ne same]
    exact arrived other

theorem PushStep.history (step : PushStep s next) (history : History config s) :
    History config next := by
  rcases history with ⟨inOrder, arrived, replayed, before, visited, idle⟩
  cases step with
  | link i pc unchanged =>
      refine ⟨?_, arrived, replayed, ?_, visited, idle⟩
      · intro queue
        have pushed := inOrder queue
        grind
      · intro queue
        have pushed := before queue
        grind
  | _ => exact ⟨inOrder, arrived, replayed, before, visited, idle⟩

theorem AcceptStep.history (step : AcceptStep config s next) (inv : Inv s)
    (history : History config s) : History config next := by
  rcases history with ⟨inOrder, arrived, replayed, before, visited, idle⟩
  cases step with
  | begin pc =>
      refine ⟨inOrder, ?_, replayed, fun _ => Nat.le_refl _, ?_, nofun⟩
      · intro kind
        have drained := arrived kind
        rw [pc] at drained
        rw [drained, idle pc]
        simp [Pc.kind]
      · intro kind queue registered unvisited
        cases kind with
        | io => exact absurd ((config.holds .io).visits ▸ registered) unvisited
        | dr => exact absurd registered unvisited
  | load pc =>
      rw [pc] at arrived visited
      exact ⟨inOrder, arrived, replayed, before, visited, nofun⟩
  | retry pc =>
      rw [pc] at arrived visited
      exact ⟨inOrder, arrived, replayed, before, visited, nofun⟩
  | @take kind queue todo old init reversed longer fuel links links' taken pc unchanged created
      returned appended =>
      have detached := inv.linked.head queue
      rw [unchanged] at detached
      have all : taken = (s.log.stack queue).reverse :=
        returned.unique (IntrusiveQueue.createReversed_eq detached created).1.1
      rw [pc] at arrived visited
      refine ⟨?_, ?_, replayed, before, ?_, nofun⟩
      · intro other
        have pushed := inOrder other
        simp only [drainedFrom_concat]
        by_cases same : other = queue
        · subst same
          rw [Function.update_self, if_pos rfl, pushed, all]
          simp
        · rw [Function.update_of_ne same, if_neg fun here => same here.symm, List.append_nil]
          exact pushed
      · intro other
        have drained := arrived other
        simp only [drainedTo_concat]
        grind [Pc.kind]
      · intro other target registered unvisited
        have drained := visited other target registered
        have pushed := inOrder target
        have started := before target
        simp only [drainedFrom_concat, List.length_append]
        by_cases same : target = queue
        · subst same
          rw [if_pos rfl, all, ← List.length_append, ← pushed]
          exact started
        · refine Nat.le_trans (drained ?_) (Nat.le_add_right _ _)
          grind [Pc.unvisited, Pc.kind, Pc.todo]
  | @append kind init longer links pc appended =>
      rw [pc] at arrived visited
      refine ⟨inOrder, ?_, ?_, before, ?_, fun _ => rfl⟩
      · intro other
        have drained := arrived other
        cases kind <;> cases other <;> simp_all [Pc.kind, afterAppend, appendedBy]
      · exact replayed_event replayed (by rw [Event.apply])
      · intro other target registered unvisited
        apply visited other target registered
        have all := (config.holds other).visits
        cases kind <;> cases other <;> simp_all [Pc.unvisited, Pc.kind, Pc.todo, afterAppend]

theorem PendingStep.history (step : PendingStep s next) (inv : Inv s)
    (history : History config s) : History config next := by
  rcases history with ⟨inOrder, arrived, replayed, before, visited, idle⟩
  cases step with
  | @popFront node rest kind pc popped =>
      refine ⟨inOrder, arrived_event arrived (by simp [appendedBy]), ?_, before, visited, idle⟩
      apply replayed_event replayed
      have queue := inv.linked.pending kind
      cases contents : s.log.contents kind with
      | nil =>
          rw [contents] at queue
          have empty : (s.pending kind).head = none := queue.1
          rw [IntrusiveQueue.popFront, empty] at popped
          cases congrArg Prod.fst popped
      | cons first others =>
          rw [contents] at queue
          have front := queue.popFront.1
          rw [popped] at front
          cases front
          simp [Event.apply]
  | submit node pc free =>
      refine ⟨inOrder, arrived_event arrived (by simp [appendedBy]), ?_, before, visited, idle⟩
      exact replayed_event replayed (by rw [Event.apply])

theorem reachable_history (reachable : (system config).Reachable s) : History config s := by
  apply reachable.invariant (History config)
  · intro state start
    rcases start with ⟨links, rfl⟩
    exact ⟨fun _ => rfl, fun _ => rfl, fun _ => rfl, fun _ => Nat.le_refl _,
      fun _ _ _ _ => Nat.zero_le _, fun _ => rfl⟩
  · intro state label next earlier history step
    cases step with
    | push step => exact step.history history
    | accept step => exact step.history (reachable_inv earlier) history
    | pending step => exact step.history (reachable_inv earlier) history

end Drains

/-- Remote queue delivery. What was drained from a queue is a part of what was
pushed on it, from the first push on, and the rest still hangs on its head; what
was drained for a pending queue has been appended to it, except for what the
current fold holds; a pending queue is the list of what was appended and
submitted less what was taken, in the order of these events, with its tail at the
last node; the thread never meets a null pointer on the way; and between two
`_M_accept_remote_request` calls every registered queue has given up what was
pushed before the last one began. -/
structure Delivered (config : Config) (s : State) : Prop where
  inOrder : ∀ queue, drainedFrom s.log.drains queue <+: s.log.pushed queue
  queued : ∀ queue, Chain s.next (s.head queue) (s.log.stack queue) ∧
    s.log.pushed queue = drainedFrom s.log.drains queue ++ (s.log.stack queue).reverse
  arrived : ∀ kind, drainedTo s.log.drains kind =
    appendedBy (s.log.history kind) ++ if s.pc.kind = some kind then s.log.collected else []
  replayed : ∀ kind, replay (s.log.history kind) = some (s.log.contents kind)
  balanced : ∀ kind, (takenBy (s.log.history kind) ++ s.log.contents kind).Perm
    (submittedBy (s.log.history kind) ++ appendedBy (s.log.history kind))
  wellFormed : ∀ kind, (s.pending kind).Represents s.next (s.log.contents kind)
  takes : ∀ kind queue todo init, s.pc = .reset kind queue todo (s.head queue) init →
    ∃ next longer, AcceptStep config s next ∧ next.pc = .fold kind todo longer
  appends : ∀ kind init, s.pc = .fold kind [] init →
    ∃ next, AcceptStep config s next ∧ next.pc = afterAppend config kind
  complete : s.pc = .idle → ∀ kind, ∀ queue ∈ config.registered kind,
    s.log.atBegin queue ≤ (drainedFrom s.log.drains queue).length

theorem remote_delivery (config : Config) (s : State)
    (reachable : (system config).Reachable s) : Delivered config s := by
  have inv := reachable_inv reachable
  have history := reachable_history reachable
  constructor
  · intro queue
    exact ⟨_, (history.inOrder queue).symm⟩
  · exact fun queue => ⟨inv.linked.head queue, history.inOrder queue⟩
  · exact history.arrived
  · exact history.replayed
  · exact fun kind => balance_of_replay (history.replayed kind)
  · exact inv.linked.pending
  · exact fun kind queue todo init pc => take_enabled reachable pc
  · exact fun kind init pc => append_enabled reachable pc
  · intro idle kind queue registered
    exact history.visited kind queue registered (by simp [Pc.unvisited, Pc.kind, idle])

/-- Queue 0, registered alone. -/
def oneSegment : SegmentArray Nat 128 where
  seg := Function.update (fun _ => none) 0 (some (Function.update (fun _ => 0) 0 0))
  count := 1

theorem oneSegment_holds : oneSegment.Holds [0] := by
  have pushed : ({} : SegmentArray Nat 128).pushBack 0 = some oneSegment := by
    have place : SegmentArray.locate 0 = (0, 0) := by decide
    have bounded : 0 < Nat.size 128 := Nat.size_pos.mpr (by decide)
    simp [SegmentArray.pushBack, SegmentArray.segment, oneSegment, place, bounded]
  exact SegmentArray.holds_empty.pushBack pushed

/-- One registered remote queue, drained into `__io_pending_`. -/
def oneQueue : Config where
  max := 128
  remote
    | .io => oneSegment
    | .dr => {}
  registered
    | .io => [0]
    | .dr => []
  holds
    | .io => oneSegment_holds
    | .dr => SegmentArray.holds_empty

/-- Node 5 is pushed, drained, taken, and pushed again behind node 6 of a second
producer that read the empty head before the first push. The second drain
appends both, and a local submit puts node 7 before them. -/
theorem remote_delivery_again :
    ∃ s, (system oneQueue).Reachable s ∧ s.log.pushed 0 = [5, 6, 5] ∧
      drainedFrom s.log.drains 0 = [5, 6, 5] ∧
      s.log.history .io = [.append [5], .pop 5, .append [6, 5], .submit 7] ∧
      s.log.contents .io = [7, 6, 5] ∧ Delivered oneQueue s := by
  have start : (system oneQueue).Reachable { next := fun _ => none } := .init ⟨_, rfl⟩
  have first := start.step (.push (.begin 0 0 5 rfl rfl))
  have second := first.step (.push (.begin 1 0 6 rfl rfl))
  have seen := second.step (.push (.load 1 rfl))
  have loaded := seen.step (.push (.load 0 rfl))
  have linked := loaded.step (.push (.link 0 rfl rfl))
  have begun := linked.step (.accept (.begin rfl))
  have visiting := begun.step (.accept (.load rfl))
  have taken := visiting.step (.accept (.take rfl rfl
    (show IntrusiveQueue.createReversed _ 1 _ = some (_, _) from rfl)
    (show Chain _ _ [5] from ⟨rfl, rfl⟩) rfl))
  have next := taken.step (.accept (.append rfl rfl))
  have idle := next.step (.accept (.append rfl rfl))
  have popped := idle.step (.pending (.popFront .io rfl rfl))
  have retried := popped.step (.push (.link 1 rfl rfl))
  have again := retried.step (.push (.begin 2 0 5 rfl rfl))
  have read := again.step (.push (.load 2 rfl))
  have pushed := read.step (.push (.link 2 rfl rfl))
  have anew := (pushed.step (.accept (.begin rfl))).step (.accept (.load rfl))
  have both := anew.step (.accept (.take rfl rfl
    (show IntrusiveQueue.createReversed _ 2 _ = some (_, _) from rfl)
    (show Chain _ _ [6, 5] from ⟨rfl, rfl, rfl⟩) rfl))
  have accepted := (both.step (.accept (.append rfl rfl))).step (.accept (.append rfl rfl))
  have submitted := accepted.step (.pending (.submit 7 rfl rfl))
  exact ⟨_, submitted, rfl, rfl, rfl, rfl, remote_delivery oneQueue _ submitted⟩

end NgrCore.RemoteQueue
