import NgrCore.AtomicQueue

/-!
Owns what the atomic intrusive queues are for: stacks shared by any number of threads.

Proves that every run is linearizable, with the compare-exchange or the load that a call
succeeds with as its effect, that the queue a pop returns stands for the nodes it took, and
that no thread writes through a null pointer or is left without a step.
-/

namespace NgrCore.AtomicQueue

open NgrCore.Library

variable {Node : Type}

/-- What a call has read and written so far. -/
def Pc.Linked (next : Links Node) : Pc Node → Prop
  | .pushLink _ node old => next node = old
  | .prependLoad _ source nodes => source.Represents next nodes ∧ nodes ≠ []
  | .prependLink _ source nodes old =>
      Segment next old source.head nodes ∧ source.tail = nodes.getLast? ∧ nodes ≠ []
  | .create _ list nodes => Chain next list nodes
  | .popped queue nodes => queue.Represents next nodes
  | .faulted => False
  | _ => True

/-- Every node is in one place, and the pointers hold the lists. -/
structure Inv (s : State Node) : Prop where
  placed : Placed (fun node => ∃ place, node ∈ s.items place) s.items
  heads : ∀ queue, Chain s.next (s.head queue) (s.lists queue)
  calls : ∀ i, (s.pc i).Linked s.next

/-- What a thread looks like from outside. -/
def Pc.phase : Pc Node → Phase (Op Node) (Result Node)
  | .idle => .idle
  | .pushLoad queue node => .pending (.pushFront queue node)
  | .pushLink queue node _ => .pending (.pushFront queue node)
  | .prependLoad queue _ nodes => .pending (.prepend queue nodes)
  | .prependLink queue _ nodes _ => .pending (.prepend queue nodes)
  | .resetLoad queue reversed => .pending (.pop queue reversed)
  | .reset queue reversed _ => .pending (.pop queue reversed)
  | .create reversed _ nodes => .done (.nodes (order reversed nodes))
  | .popped _ nodes => .done (.nodes nodes)
  | .emptyLoad queue => .pending (.empty queue)
  | .returned result => .done result
  | .faulted => .idle

/-- The stacks that a state stands for. -/
def State.read (s : State Node) : Atomic (Nat → List Node) (Op Node) (Result Node) where
  value := s.lists
  phase i := (s.pc i).phase

section Invariant

variable {s : State Node} {i : Nat} {pc : Pc Node}

theorem Pc.Linked.congr {links other : Links Node} (linked : pc.Linked links)
    (agree : ∀ node ∈ pc.nodes, other node = links node) : pc.Linked other := by
  cases pc with
  | pushLink queue node old =>
      have same : links node = old := linked
      exact (agree node (by simp [Pc.nodes])).trans same
  | prependLoad queue source nodes => exact ⟨linked.1.congr agree, linked.2⟩
  | prependLink queue source nodes old => exact ⟨linked.1.congr agree, linked.2⟩
  | create reversed list nodes => exact Chain.congr linked agree
  | popped queue nodes => exact linked.congr agree
  | faulted => exact linked
  | _ => trivial

theorem items_update (place : Place) {links : Links Node} {head : Nat → Option Node}
    {lists : Nat → List Node} :
    (State.mk links head (Function.update s.pc i pc) lists).items place =
      match place with
      | .queue index => lists index
      | .call thread => if thread = i then pc.nodes else (s.pc thread).nodes := by
  cases place with
  | queue index => rfl
  | call thread =>
      show (Function.update s.pc i pc thread).nodes = _
      by_cases same : thread = i
      · rw [same, Function.update_self]
        simp
      · rw [Function.update_of_ne same]
        simp [same]

theorem Inv.apart (inv : Inv s) {node : Node} (mine : node ∈ (s.pc i).nodes) {place : Place}
    (here : node ∈ s.items place) : place = .call i :=
  inv.placed.apart place (.call i) node here mine

theorem Inv.move (inv : Inv s) (i : Nat) {links : Links Node} {head : Nat → Option Node}
    {lists : Nat → List Node}
    (placed : Placed (fun node => ∃ place,
        node ∈ (State.mk links head (Function.update s.pc i pc) lists).items place)
      (State.mk links head (Function.update s.pc i pc) lists).items)
    (heads : ∀ queue, Chain links (head queue) (lists queue))
    (agree : ∀ j, j ≠ i → ∀ node ∈ (s.pc j).nodes, links node = s.next node)
    (own : pc.Linked links) : Inv (State.mk links head (Function.update s.pc i pc) lists) := by
  refine ⟨placed, heads, ?_⟩
  intro j
  show (Function.update s.pc i pc j).Linked links
  by_cases same : j = i
  · rw [same, Function.update_self]
    exact own
  · rw [Function.update_of_ne same]
    exact (inv.calls j).congr (agree j same)

/-- One thread moves, keeps its nodes, and writes no other links. -/
theorem Inv.keep (inv : Inv s) (i : Nat) {links : Links Node}
    (nodes : pc.nodes.Perm (s.pc i).nodes)
    (written : ∀ node, node ∉ (s.pc i).nodes → links node = s.next node)
    (own : pc.Linked links) :
    Inv (State.mk links s.head (Function.update s.pc i pc) s.lists) := by
  have elsewhere : ∀ place node, node ∈ s.items place → place ≠ .call i →
      links node = s.next node := by
    intro place node here different
    apply written
    intro mine
    exact different (inv.apart mine here)
  apply inv.move i
  · apply Placed.self
    apply inv.placed.congr
    intro place
    rw [items_update]
    cases place with
    | queue index => exact .refl _
    | call thread =>
        by_cases same : thread = i
        · simpa [same, State.items] using nodes
        · simp [same, State.items]
  · intro queue
    exact (inv.heads queue).congr fun node member => elsewhere (.queue queue) node member nofun
  · intro j different node member
    apply elsewhere (.call j) node member
    intro same
    exact different (Place.call.inj same)
  · exact own

theorem Inv.quiet (inv : Inv s) (i : Nat) (nodes : pc.nodes = (s.pc i).nodes)
    (own : pc.Linked s.next) : Inv { s with pc := Function.update s.pc i pc } := by
  apply inv.keep i _ _ own
  · rw [nodes]
  · exact fun _ _ => rfl

theorem Inv.take (inv : Inv s) (i : Nat) (empty : (s.pc i).nodes = [])
    (distinct : pc.nodes.Nodup) (free : ∀ node ∈ pc.nodes, s.Free node)
    (own : pc.Linked s.next) : Inv { s with pc := Function.update s.pc i pc } := by
  apply inv.move i _ inv.heads (fun _ _ _ _ => rfl) own
  apply Placed.self
  apply inv.placed.insert (.call i) distinct
  · intro node member somewhere
    obtain ⟨place, here⟩ := somewhere
    exact free node member place here
  · rw [items_update]
    simp [State.items, empty]
  · intro place different
    rw [items_update]
    cases place with
    | queue index => rfl
    | call thread =>
        have other : thread ≠ i := fun same => different (congrArg Place.call same)
        simp [other, State.items]

theorem Inv.leave (inv : Inv s) (i : Nat) (nodes : pc.nodes = []) (own : pc.Linked s.next) :
    Inv { s with pc := Function.update s.pc i pc } := by
  apply inv.move i _ inv.heads (fun _ _ _ _ => rfl) own
  apply inv.placed.sublist
  intro place
  rw [items_update]
  cases place with
  | queue index => exact .refl _
  | call thread =>
      by_cases same : thread = i
      · simp [same, nodes]
      · simp [same, State.items]

theorem Inv.exchange (inv : Inv s) (i queue : Nat) {head : Option Node} {list : List Node}
    (moved : (pc.nodes ++ list).Perm ((s.pc i).nodes ++ s.lists queue))
    (chain : Chain s.next head list) (own : pc.Linked s.next) :
    Inv { s with
      head := Function.update s.head queue head
      pc := Function.update s.pc i pc
      lists := Function.update s.lists queue list } := by
  apply inv.move i _ _ (fun _ _ _ _ => rfl) own
  · apply Placed.self
    apply inv.placed.transfer (.call i) (.queue queue) (by simp)
    · intro place notCall notQueue
      rw [items_update]
      cases place with
      | queue index =>
          have other : index ≠ queue := fun same => notQueue (congrArg Place.queue same)
          simp [Function.update_of_ne other, State.items]
      | call thread =>
          have other : thread ≠ i := fun same => notCall (congrArg Place.call same)
          simp [other, State.items]
    · rw [items_update, items_update]
      simpa [State.items] using moved
  · intro other
    by_cases same : other = queue
    · rw [same, Function.update_self, Function.update_self]
      exact chain
    · rw [Function.update_of_ne same, Function.update_of_ne same]
      exact inv.heads other

theorem Inv.write [DecidableEq Node] (inv : Inv s) {node : Node} (free : s.Free node)
    (value : Option Node) : Inv { s with next := Function.update s.next node value } := by
  have others : ∀ place other, other ∈ s.items place →
      Function.update s.next node value other = s.next other := by
    intro place other here
    apply Function.update_of_ne
    intro same
    subst same
    exact free place here
  refine ⟨inv.placed, ?_, ?_⟩
  · intro queue
    exact (inv.heads queue).congr (others (.queue queue))
  · intro j
    exact (inv.calls j).congr (others (.call j))

end Invariant

section Steps

variable [DecidableEq Node] {s next : State Node} {i : Nat}
  {event : Event (Op Node) (Result Node)}

theorem Inv.relink (inv : Inv s) {queue : Nat} {node : Node} (nodes : (s.pc i).nodes = [node]) :
    Inv { s with
      next := Function.update s.next node (s.head queue)
      pc := Function.update s.pc i (.pushLink queue node (s.head queue)) } := by
  apply inv.keep i
  · rw [nodes]
    exact .refl _
  · intro other outside
    apply Function.update_of_ne
    intro same
    apply outside
    rw [nodes, same]
    exact List.mem_singleton_self node
  · exact Function.update_self ..

theorem Inv.relead (inv : Inv s) {queue : Nat} {source : IntrusiveQueue Node} {nodes : List Node}
    {old : Option Node} {tail : Node} (mine : (s.pc i).nodes = nodes)
    (segment : Segment s.next old source.head nodes) (ends : source.tail = nodes.getLast?)
    (last : source.tail = some tail) :
    Inv { s with
      next := Function.update s.next tail (s.head queue)
      pc := Function.update s.pc i (.prependLink queue source nodes (s.head queue)) } := by
  have found : nodes.getLast? = some tail := ends.symm.trans last
  have distinct : nodes.Nodup := mine ▸ inv.placed.nodup (.call i)
  apply inv.keep i
  · rw [mine]
    exact .refl _
  · intro other outside
    apply Function.update_of_ne
    intro same
    apply outside
    rw [mine, same]
    exact List.mem_of_getLast? found
  · exact ⟨segment.redirect found distinct, ends, List.ne_nil_of_mem (List.mem_of_getLast? found)⟩

theorem PushStep.inv (step : PushStep s i event next) (inv : Inv s) : Inv next := by
  cases step with
  | call queue pc free =>
      rename_i node
      apply inv.take i
      · rw [pc]
        rfl
      · exact List.nodup_singleton node
      · intro other member
        rw [List.mem_singleton.mp member]
        exact free
      · trivial
  | load pc => exact inv.relink (by rw [pc]; rfl)
  | retry pc => exact inv.relink (by rw [pc]; rfl)
  | link pc unchanged =>
      rename_i queue node old
      have linked := inv.calls i
      rw [pc] at linked
      have expected : s.next node = old := linked
      apply inv.exchange i queue
      · rw [pc]
        exact .refl _
      · refine ⟨rfl, ?_⟩
        rw [expected, ← unchanged]
        exact inv.heads queue
      · trivial

theorem PrependStep.inv (step : PrependStep s i event next) (inv : Inv s) : Inv next := by
  have linked := inv.calls i
  cases step with
  | call queue pc holds free nonempty =>
      exact inv.take i (by rw [pc]; rfl) holds.1.nodup free ⟨holds, nonempty⟩
  | load pc last =>
      rw [pc] at linked
      exact inv.relead (by rw [pc]; rfl) (Segment.chain_iff.mpr linked.1.1) linked.1.2 last
  | fault pc null =>
      rw [pc] at linked
      have nothing := List.getLast?_eq_none_iff.mp (linked.1.2.symm.trans null)
      exact absurd nothing linked.2
  | retry pc last =>
      rw [pc] at linked
      exact inv.relead (by rw [pc]; rfl) linked.1 linked.2.1 last
  | link pc unchanged =>
      rename_i queue source nodes old
      rw [pc] at linked
      apply inv.exchange i queue
      · rw [pc]
        exact .refl _
      · apply linked.1.chain
        rw [← unchanged]
        exact inv.heads queue
      · trivial

theorem PopStep.inv (step : PopStep s i event next) (inv : Inv s) : Inv next := by
  have linked := inv.calls i
  cases step with
  | call queue reversed pc => exact inv.quiet i (by rw [pc]; rfl) trivial
  | load pc => exact inv.quiet i (by rw [pc]; rfl) trivial
  | retry pc => exact inv.quiet i (by rw [pc]; rfl) trivial
  | take pc unchanged =>
      rename_i queue reversed old
      apply inv.exchange i queue
      · rw [pc]
        exact List.perm_append_comm
      · rfl
      · rw [← unchanged]
        exact inv.heads queue
  | create pc created =>
      rw [pc] at linked
      exact inv.quiet i (by rw [pc]; rfl) (IntrusiveQueue.create_eq linked created)
  | reverse pc created =>
      rw [pc] at linked
      have reversed := IntrusiveQueue.createReversed_eq linked created
      apply inv.keep i
      · rw [pc]
        exact List.reverse_perm _
      · rw [pc]
        exact reversed.2
      · exact reversed.1
  | ret pc shows => exact inv.leave i rfl trivial

omit [DecidableEq Node] in
theorem PlainStep.inv (step : PlainStep s i event next) (inv : Inv s) : Inv next := by
  cases step with
  | call queue pc => exact inv.quiet i (by rw [pc]; rfl) trivial
  | load pc => exact inv.quiet i (by rw [pc]; rfl) trivial
  | ret pc => exact inv.leave i rfl trivial

theorem Step.inv (step : Step s event next) (inv : Inv s) : Inv next := by
  cases step with
  | push i step => exact step.inv inv
  | prepend i step => exact step.inv inv
  | pop i step => exact step.inv inv
  | plain i step => exact step.inv inv
  | write node value free => exact inv.write free value

/-! ### Effects -/

omit [DecidableEq Node] in
theorem read_moves {pc : Pc Node} (own : event.By i)
    (moves : (s.pc i).phase.Next i event pc.phase) (j : Nat) :
    (s.pc j).phase.Next j event (Function.update s.pc i pc j).phase := by
  have all := @Phase.next_update _ _ (fun j => (s.pc j).phase) i event pc.phase own moves j
  by_cases same : j = i
  · subst same
    rw [Function.update_self] at all ⊢
    exact all
  · rw [Function.update_of_ne same] at all ⊢
    exact all

omit [DecidableEq Node] in
/-- A head is null exactly when its stack is empty. -/
theorem Inv.isNone (inv : Inv s) (queue : Nat) :
    (s.head queue).isNone = (s.lists queue).isEmpty := by
  rw [(inv.heads queue).head_eq]
  cases s.lists queue <;> rfl

/-- A step is one of the atomic stacks. -/
def Refines (s : State Node) (event : Event (Op Node) (Result Node)) (next : State Node) : Prop :=
  stackObject.Changes s.lists event next.lists ∧
    ∀ j, (s.pc j).phase.Next j event (next.pc j).phase

theorem PushStep.refines (step : PushStep s i event next) (inv : Inv s) :
    Refines s event next := by
  cases step with
  | call queue pc free => exact ⟨rfl, read_moves rfl (by rw [pc]; exact .call _)⟩
  | load pc => exact ⟨rfl, read_moves trivial (by rw [pc]; exact .quiet _)⟩
  | retry pc => exact ⟨rfl, read_moves trivial (by rw [pc]; exact .quiet _)⟩
  | link pc unchanged =>
      rename_i queue node old
      refine ⟨⟨?_, rfl⟩, read_moves rfl (by rw [pc]; exact .effect _ _)⟩
      rw [← unchanged, inv.isNone]

theorem PrependStep.refines (step : PrependStep s i event next) (inv : Inv s) :
    Refines s event next := by
  cases step with
  | call queue pc holds free nonempty => exact ⟨rfl, read_moves rfl (by rw [pc]; exact .call _)⟩
  | load pc last => exact ⟨rfl, read_moves trivial (by rw [pc]; exact .quiet _)⟩
  | fault pc null =>
      have linked := inv.calls i
      rw [pc] at linked
      have nothing := List.getLast?_eq_none_iff.mp (linked.1.2.symm.trans null)
      exact absurd nothing linked.2
  | retry pc last => exact ⟨rfl, read_moves trivial (by rw [pc]; exact .quiet _)⟩
  | link pc unchanged =>
      exact ⟨⟨rfl, rfl⟩, read_moves rfl (by rw [pc]; exact .effect _ _)⟩

theorem PopStep.refines (step : PopStep s i event next) (inv : Inv s) :
    Refines s event next := by
  cases step with
  | call queue reversed pc => exact ⟨rfl, read_moves rfl (by rw [pc]; exact .call _)⟩
  | load pc => exact ⟨rfl, read_moves trivial (by rw [pc]; exact .quiet _)⟩
  | retry pc => exact ⟨rfl, read_moves trivial (by rw [pc]; exact .quiet _)⟩
  | take pc unchanged => exact ⟨⟨rfl, rfl⟩, read_moves rfl (by rw [pc]; exact .effect _ _)⟩
  | create pc created => exact ⟨rfl, read_moves trivial (by rw [pc]; exact .quiet _)⟩
  | reverse pc created => exact ⟨rfl, read_moves trivial (by rw [pc]; exact .quiet _)⟩
  | ret pc shows =>
      have linked := inv.calls i
      rw [pc] at linked
      refine ⟨rfl, read_moves rfl ?_⟩
      rw [pc, shows.1.unique linked.1]
      exact .ret _

omit [DecidableEq Node] in
theorem PlainStep.refines (step : PlainStep s i event next) (inv : Inv s) :
    Refines s event next := by
  cases step with
  | call queue pc => exact ⟨rfl, read_moves rfl (by rw [pc]; exact .call _)⟩
  | load pc =>
      refine ⟨⟨?_, rfl⟩, read_moves rfl (by rw [pc]; exact .effect _ _)⟩
      rw [inv.isNone]
  | ret pc => exact ⟨rfl, read_moves rfl (by rw [pc]; exact .ret _)⟩

theorem Step.refines (step : Step s event next) (inv : Inv s) : Refines s event next := by
  cases step with
  | push i step => exact step.refines inv
  | prepend i step => exact step.refines inv
  | pop i step => exact step.refines inv
  | plain i step => exact step.refines inv
  | write node value free => exact ⟨rfl, fun j => .quiet _⟩

omit [DecidableEq Node] in
theorem inv_start (links : Links Node) : Inv ({ next := links } : State Node) := by
  have nothing : ∀ place, ({ next := links } : State Node).items place = [] := by
    intro place
    cases place <;> rfl
  refine ⟨⟨?_, ?_, ?_⟩, fun queue => rfl, fun j => trivial⟩
  · intro place
    rw [nothing]
    exact List.nodup_nil
  · intro first second node here
    rw [nothing] at here
    exact absurd here List.not_mem_nil
  · exact fun node => Iff.rfl

theorem simulation : System.Simulation (system : System (State Node) _)
    (stackObject.atomic fun _ => []) fun s abstract => abstract = s.read ∧ Inv s where
  init := by
    intro s start
    obtain ⟨links, rfl⟩ := start
    exact ⟨_, rfl, rfl, inv_start links⟩
  step := by
    intro s abstract event next related step
    obtain ⟨same, inv⟩ := related
    subst same
    exact ⟨next.read, Step.refines step inv, rfl, Step.inv step inv⟩

theorem reachable_inv (reachable : (system : System (State Node) _).Reachable s) : Inv s := by
  apply reachable.invariant Inv
  · intro state start
    obtain ⟨links, rfl⟩ := start
    exact inv_start links
  · intro state event next _ inv step
    exact Step.inv step inv

/-! ### Calls that run alone -/

/-- A step of one thread. -/
inductive OwnStep (i : Nat) (s : State Node) : State Node → Prop
  | push {event : Event (Op Node) (Result Node)} {next : State Node} :
      PushStep s i event next → OwnStep i s next
  | prepend {event : Event (Op Node) (Result Node)} {next : State Node} :
      PrependStep s i event next → OwnStep i s next
  | pop {event : Event (Op Node) (Result Node)} {next : State Node} :
      PopStep s i event next → OwnStep i s next
  | plain {event : Event (Op Node) (Result Node)} {next : State Node} :
      PlainStep s i event next → OwnStep i s next

theorem OwnStep.inv (step : OwnStep i s next) (inv : Inv s) : Inv next := by
  cases step with
  | push step => exact step.inv inv
  | prepend step => exact step.inv inv
  | pop step => exact step.inv inv
  | plain step => exact step.inv inv

/-- The thread is idle after so many steps of its own, with no other thread in between. -/
def IdleWithin (i : Nat) : Nat → State Node → Prop
  | 0, s => s.pc i = .idle
  | steps + 1, s => s.pc i = .idle ∨ ∃ next, OwnStep i s next ∧ IdleWithin i steps next

theorem IdleWithin.more {steps : Nat} (within : IdleWithin i steps s) :
    IdleWithin i (steps + 1) s := by
  induction steps generalizing s with
  | zero => exact .inl within
  | succ steps inductionHypothesis =>
      rcases within with idle | ⟨next, step, rest⟩
      · exact .inl idle
      · exact .inr ⟨next, step, inductionHypothesis rest⟩

theorem idle_of_returned {result : Result Node} (pc : s.pc i = .returned result) :
    IdleWithin i 1 s :=
  .inr ⟨_, .plain (.ret pc), Function.update_self ..⟩

theorem idle_of_popped (inv : Inv s) {queue : IntrusiveQueue Node} {nodes : List Node}
    (pc : s.pc i = .popped queue nodes) : IdleWithin i 1 s := by
  have linked := inv.calls i
  rw [pc] at linked
  exact .inr ⟨_, .pop (.ret pc linked), Function.update_self ..⟩

theorem idle_of_create (inv : Inv s) {reversed : Bool} {list : Option Node} {nodes : List Node}
    (pc : s.pc i = .create reversed list nodes) : IdleWithin i 2 s := by
  have chain := inv.calls i
  rw [pc] at chain
  cases reversed with
  | false =>
      obtain ⟨queue, created⟩ := Option.isSome_iff_exists.mp
        (IntrusiveQueue.create_isSome chain (Nat.le_refl _))
      have made : OwnStep i s _ := .pop (.create pc created)
      exact .inr ⟨_, made, idle_of_popped (made.inv inv) (Function.update_self ..)⟩
  | true =>
      obtain ⟨links, queue, created, _⟩ :=
        IntrusiveQueue.createReversed_spec nodes.length (Nat.le_refl _) chain
      have made : OwnStep i s _ := .pop (.reverse pc created)
      exact .inr ⟨_, made, idle_of_popped (made.inv inv) (Function.update_self ..)⟩

theorem idle_of_push_linked {queue : Nat} {node : Node} {old : Option Node}
    (pc : s.pc i = .pushLink queue node old) (fresh : s.head queue = old) : IdleWithin i 2 s :=
  .inr ⟨_, .push (.link pc fresh), idle_of_returned (Function.update_self ..)⟩

theorem idle_of_prepend_linked {queue : Nat} {source : IntrusiveQueue Node} {nodes : List Node}
    {old : Option Node} (pc : s.pc i = .prependLink queue source nodes old)
    (fresh : s.head queue = old) : IdleWithin i 2 s :=
  .inr ⟨_, .prepend (.link pc fresh), idle_of_returned (Function.update_self ..)⟩

theorem idle_of_reset (inv : Inv s) {queue : Nat} {reversed : Bool} {old : Option Node}
    (pc : s.pc i = .reset queue reversed old) (fresh : s.head queue = old) :
    IdleWithin i 3 s := by
  have taken : OwnStep i s _ := .pop (.take pc fresh)
  exact .inr ⟨_, taken, idle_of_create (taken.inv inv) (Function.update_self ..)⟩

/-- A call that runs alone returns. A compare-exchange that would fail is repeated once, with
the head as it is now. -/
theorem idle_within (inv : Inv s) (i : Nat) : IdleWithin i 4 s := by
  have linked := inv.calls i
  cases pc : s.pc i with
  | idle => exact .inl pc
  | pushLoad queue node =>
      apply IdleWithin.more
      exact .inr ⟨_, .push (.load pc), idle_of_push_linked (Function.update_self ..) rfl⟩
  | pushLink queue node old =>
      apply IdleWithin.more
      exact .inr ⟨_, .push (.retry pc), idle_of_push_linked (Function.update_self ..) rfl⟩
  | prependLoad queue source nodes =>
      rw [pc] at linked
      have ends := linked.1.2.trans (List.getLast?_eq_some_getLast linked.2)
      apply IdleWithin.more
      exact .inr ⟨_, .prepend (.load pc ends),
        idle_of_prepend_linked (Function.update_self ..) rfl⟩
  | prependLink queue source nodes old =>
      rw [pc] at linked
      have ends := linked.2.1.trans (List.getLast?_eq_some_getLast linked.2.2)
      apply IdleWithin.more
      exact .inr ⟨_, .prepend (.retry pc ends),
        idle_of_prepend_linked (Function.update_self ..) rfl⟩
  | resetLoad queue reversed =>
      have loaded : OwnStep i s _ := .pop (.load pc)
      exact .inr ⟨_, loaded, idle_of_reset (loaded.inv inv) (Function.update_self ..) rfl⟩
  | reset queue reversed old =>
      have again : OwnStep i s _ := .pop (.retry pc)
      exact .inr ⟨_, again, idle_of_reset (again.inv inv) (Function.update_self ..) rfl⟩
  | create reversed list nodes => exact (idle_of_create inv pc).more.more
  | popped queue nodes => exact (idle_of_popped inv pc).more.more.more
  | emptyLoad queue =>
      have looked : OwnStep i s _ := .plain (.load pc)
      have returns : IdleWithin i 2 s :=
        .inr ⟨_, looked, idle_of_returned (Function.update_self ..)⟩
      exact returns.more.more
  | returned result => exact (idle_of_returned pc).more.more.more
  | faulted =>
      rw [pc] at linked
      exact linked.elim

end Steps

/-! ### A race -/

/-- Two threads push on one queue. The second links first, the first loads the head again, and
a third thread pops both in the order of the pushes. -/
theorem race : ∃ (trace : List (Event (Op Nat) (Result Nat))) (s : State Nat),
    (system : System (State Nat) _).Traced trace s ∧
      s.pc 2 = .popped ⟨some 6, some 5⟩ [6, 5] ∧
      effects trace = [(.pushFront 0 6, .answer true), (.pushFront 0 5, .answer false),
        (.pop 0 true, .nodes [6, 5])] := by
  have start : (system : System (State Nat) _).Traced [] { next := fun _ => none } :=
    .init ⟨_, rfl⟩
  have free : ({ next := fun _ => none } : State Nat).Free 5 := by
    intro place member
    cases place <;> exact absurd member List.not_mem_nil
  have first := start.step (.push 0 (.call 0 rfl free))
  have other : ({
      next := fun _ => none
      pc := Function.update (fun _ => .idle) 0 (.pushLoad 0 5) } : State Nat).Free 6 := by
    intro place member
    cases place with
    | queue index => exact absurd member List.not_mem_nil
    | call thread =>
        by_cases same : thread = 0
        · simp [same, State.items, Pc.nodes] at member
        · simp [Function.update_of_ne same, State.items, Pc.nodes] at member
  have second := first.step (.push 1 (.call 0 rfl other))
  have loads := second.step (.push 0 (.load rfl))
  have also := loads.step (.push 1 (.load rfl))
  have linked := also.step (.push 1 (.link rfl rfl))
  have again := linked.step (.push 0 (.retry rfl))
  have behind := again.step (.push 0 (.link rfl rfl))
  have pops := behind.step (.pop 2 (.call 0 true rfl))
  have reads := pops.step (.pop 2 (.load rfl))
  have taken := reads.step (.pop 2 (.take rfl rfl))
  have made := taken.step
    (.pop 2 (.reverse rfl (rfl : IntrusiveQueue.createReversed _ 2 _ = _)))
  exact ⟨_, _, made, rfl, rfl⟩

/-! ### Results -/

variable [DecidableEq Node]

/-- What a run guarantees to the owners of nodes and to the callers. -/
structure Sound (s : State Node) : Prop where
  one : ∀ first second node, node ∈ s.items first → node ∈ s.items second → first = second
  stack : ∀ queue, Chain s.next (s.head queue) (s.lists queue)
  popped : ∀ i queue nodes, s.pc i = .popped queue nodes → queue.Represents s.next nodes
  unfaulted : ∀ i, s.pc i ≠ .faulted
  returns : ∀ i, IdleWithin i 4 s

/-- In every reachable state no node is in two places, every head leads through its stack, a
pop returns a queue of exactly the nodes it took, no thread writes through a null pointer,
and a call that runs alone returns within four steps. -/
theorem sound (s : State Node) (reachable : (system : System (State Node) _).Reachable s) :
    Sound s := by
  have inv := reachable_inv reachable
  constructor
  · exact inv.placed.apart
  · exact inv.heads
  · intro i queue nodes pc
    have linked := inv.calls i
    rw [pc] at linked
    exact linked
  · intro i pc
    have linked := inv.calls i
    rw [pc] at linked
    exact linked
  · exact idle_within inv

theorem sound_race : ∃ s : State Nat, s.pc 2 = .popped ⟨some 6, some 5⟩ [6, 5] ∧ Sound s := by
  obtain ⟨trace, s, run, popped, _⟩ := race
  exact ⟨s, popped, sound s run.reachable⟩

end NgrCore.AtomicQueue
