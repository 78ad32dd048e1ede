import NgrCore.MpscQueue.Consumer

/-!
Owns what `__intrusive_mpsc_queue` promises: nodes leave in the order of the exchanges,
the stub never does, and what an empty-handed `_M_pop_front` or a false `_M_push_back`
says about the queue.
-/

namespace NgrCore.MpscQueue

open NgrCore.Library

section Definitions

variable {Node Thread : Type} [DecidableEq Node] [DecidableEq Thread]

/-- The `_Next` fields lead from one node to the other. -/
def Reaches (next : Links Node) : Node → Node → Prop :=
  Relation.ReflTransGen fun x y => next x = some y

/-- Every pushed node has been popped, or a producer is between its exchange and its link. -/
def Moment (s : State Node Thread) : Prop :=
  s.unpopped = [] ∨ ∃ t prev newNode held, s.producer t = .link prev newNode held

/-- Whether there has been such a moment since the latest call of `_M_pop_front` began. A
call that begins has seen nothing before, and only the states in which it runs count. -/
def note (moment : Prop) (s : State Node Thread) (_ : Option Thread) (after : State Node Thread) :
    Prop :=
  (after.pops = s.pops ∧ moment) ∨ (after.consumer.running = true ∧ Moment after)

/-- The runs of the queue, watched for moments. -/
def watched (Thread : Type) [DecidableEq Thread] (stub : Node) :
    System (State Node Thread × Prop) (Option Thread) :=
  (system Thread stub).watch False note

/-- The node leads to the other within the queue, or a call is about to make it. -/
def LinkTo (stub : Node) (s : State Node Thread) (x y : Node) : Prop :=
  (x ∈ s.nodes ∧ s.next x = some y) ∨ Linking stub s x y

/-- What holds in every state of a run. The stub's stale link outside the list is never
followed: only the tail's link is read, and the tail stays on the list. `moment` says
whether there has been a moment during the latest call of `_M_pop_front`. -/
structure Fifo (stub : Node) (s : State Node Thread) (moment : Prop) : Prop where
  order : s.popped <+: s.pushed
  hidden : stub ∉ s.popped ∧ s.consumer ≠ .returned (some stub)
  once : s.nodes.count stub ≤ 1 ∧ ∀ x y, LinkTo stub s x stub → LinkTo stub s y stub → x = y
  listed : ∀ x, Reaches s.next s.tail x ∨ Reaches s.next s.head x → x ∈ s.nodes
  taken : ∀ after x, PopStep stub s after → after.consumer = .returned (some x) →
    after.popped = s.popped ++ [x] ∧ x ∉ after.unpopped
  gone : ∀ x, x ≠ stub → x ∉ s.unpopped →
    ¬ Reaches s.next s.tail x ∧ ¬ Reaches s.next s.head x ∧
      ∀ prev newNode, Linking stub s prev newNode → x ≠ prev ∧ x ≠ newNode
  null : s.consumer = .returned none → moment
  nonempty : ∀ t held, s.producer t = .returned false held → held = true

end Definitions

section Empty

variable {Node Thread : Type} [DecidableEq Node] {stub : Node} {s after : State Node Thread}

/-- Nothing behind the tail: it is the only node, or a producer is about to link. -/
theorem Inv.alone_or_moment (inv : Inv stub s) (elsewhere : ∀ prev, s.consumer ≠ .stubLink prev)
    (null : s.next s.tail = none) : s.nodes = [s.tail] ∨ Moment s := by
  rcases inv.next_none inv.tail_mem null with same | ⟨y, producer | ⟨consumer, _⟩⟩
  · exact .inl (inv.nodes_single same.symm)
  · obtain ⟨t, held, pc⟩ := producer
    exact .inr (.inr ⟨t, s.tail, y, held, pc⟩)
  · exact absurd consumer (elsewhere _)

variable {moment : Prop} {label : Option Thread}

theorem PushStep.makes [DecidableEq Thread] {t : Thread} (step : PushStep stub s t after) :
    after.consumer = s.consumer ∧ after.pops = s.pops ∧
      (Moment after ∨ (after.nodes = s.nodes ∧ after.tail = s.tail)) := by
  cases step with
  | begin => exact ⟨rfl, rfl, .inr ⟨rfl, rfl⟩⟩
  | exchange => exact ⟨rfl, rfl, .inl (.inr ⟨t, _, _, _, Function.update_self _ _ _⟩)⟩
  | link => exact ⟨rfl, rfl, .inr ⟨rfl, rfl⟩⟩

/-- What a call has seen when it finds nothing. -/
structure Watches (s : State Node Thread) (moment : Prop) : Prop where
  notes : s.consumer.running = true → Moment s → moment
  missed : s.consumer = .loadHead → moment ∨ s.nodes = [s.tail]
  null : s.consumer = .returned none → moment

theorem Watches.push [DecidableEq Thread] (watches : Watches s moment) {t : Thread}
    (step : PushStep stub s t after) : Watches after (note moment s label after) := by
  obtain ⟨consumer, pops, made⟩ := step.makes
  have kept (seen : moment) : note moment s label after := .inl ⟨pops, seen⟩
  constructor
  · exact fun running here => .inr ⟨running, here⟩
  · intro pc
    rcases made with here | ⟨nodes, tail⟩
    · exact .inl (.inr ⟨by rw [pc]; rfl, here⟩)
    · rw [nodes, tail]
      exact (watches.missed (consumer ▸ pc)).imp_left kept
  · exact fun pc => kept (watches.null (consumer ▸ pc))

theorem Watches.pop (watches : Watches s moment) (inv : Inv stub s)
    (step : PopStep stub s after) : Watches after (note moment s label after) := by
  have notes (running : after.consumer.running = true) (here : Moment after) :
      note moment s label after := .inr ⟨running, here⟩
  have kept (pops : after.pops = s.pops) (seen : moment) : note moment s label after :=
    .inl ⟨pops, seen⟩
  cases step with
  | begin | skip | take | last | stubStore | stubExchange | stubLink => exact ⟨notes, nofun, nofun⟩
  | empty pc atStub next =>
      refine ⟨notes, nofun, fun _ => kept rfl (watches.notes (by rw [pc]; rfl) ?_)⟩
      have found := inv.alone_or_moment (fun _ other => absurd (pc.symm.trans other) nofun) next
      rcases found with alone | here
      · left
        rw [inv.unpopped, alone, atStub]
        simp
      · exact here
  | miss pc next =>
      refine ⟨notes, fun _ => ?_, nofun⟩
      have running : s.consumer.running = true ∧ ∀ prev, s.consumer ≠ .stubLink prev := by
        rcases pc with ⟨pc, _⟩ | pc
        all_goals
          rw [pc]
          exact ⟨rfl, nofun⟩
      rcases inv.alone_or_moment running.2 next with alone | here
      · exact .inr alone
      · exact .inl (kept rfl (watches.notes running.1 here))
  | behind pc other =>
      refine ⟨notes, nofun, fun _ => ?_⟩
      rcases watches.missed pc with seen | alone
      · exact kept rfl seen
      · have last := inv.last
        rw [alone] at last
        exact absurd (Option.some.inj last).symm other
  | giveUp pc next =>
      refine ⟨notes, nofun, fun _ => kept rfl (watches.notes (by rw [pc]; rfl) ?_)⟩
      have found := inv.alone_or_moment (fun _ other => absurd (pc.symm.trans other) nofun) next
      rcases found with alone | here
      · -- the stub that this call has pushed is behind the tail
        have listed := inv.consumer
        rw [pc] at listed
        obtain ⟨away, member⟩ := listed
        rw [alone, List.mem_singleton] at member
        exact absurd member.symm away
      · exact here

theorem watches_of_reachable [DecidableEq Thread]
    (reachable : (watched Thread stub).Reachable (s, moment)) : Watches s moment := by
  refine reachable.invariant (fun run => Watches run.1 run.2) ?_ ?_
  · rintro ⟨_, _⟩ ⟨⟨next, _, rfl⟩, _⟩
    exact ⟨nofun, nofun, nofun⟩
  · rintro ⟨s, moment⟩ label ⟨after, later⟩ earlier watches ⟨step, noted⟩
    obtain rfl : later = note moment s label after := noted
    change Watches s moment at watches
    show Watches after (note moment s label after)
    cases step with
    | push step => exact watches.push step
    | pop step => exact watches.pop (inv_of_reachable earlier.of_watch) step

end Empty

section Fifo

variable {Node Thread : Type} [DecidableEq Node] {stub : Node} {s : State Node Thread}

theorem Inv.reaches_mem (inv : Inv stub s) {first x : Node} (member : first ∈ s.nodes)
    (path : Reaches s.next first x) : x ∈ s.nodes := by
  induction path with
  | refl => exact member
  | tail _ next inductionHypothesis => exact (inv.next_follows inductionHypothesis next).mem_second

theorem Inv.linkTo_follows (inv : Inv stub s) {x y : Node} (link : LinkTo stub s x y) :
    Follows s.nodes x y := by
  rcases link with ⟨member, next⟩ | linking
  · exact inv.next_follows member next
  · exact (inv.linking x y linking).1

/-- The node that a call returns is on the list no longer. -/
theorem PopStep.taken (inv : Inv stub s) {after : State Node Thread} (step : PopStep stub s after)
    {x : Node} (returned : after.consumer = .returned (some x)) :
    after.popped = s.popped ++ [x] ∧ x ∉ after.unpopped := by
  have kept := step.inv inv
  cases step with
  | begin | empty | skip | miss | behind | last | stubStore | stubExchange | stubLink | giveUp =>
      cases returned
  | take pc next =>
      cases returned
      refine ⟨rfl, fun member => ?_⟩
      have nodup := inv.nodup
      rw [inv.nodes_eq] at nodup
      exact (List.nodup_cons.mp nodup).1 (kept.mem_unpopped.mp member).1

variable [DecidableEq Thread]

theorem stub_not_pushed (reachable : (system Thread stub).Reachable s) : stub ∉ s.pushed := by
  refine reachable.invariant (fun s => stub ∉ s.pushed) ?_ ?_
  · rintro _ ⟨next, _, rfl⟩
    exact List.not_mem_nil
  · intro s label after earlier outside step
    cases step with
    | @push t _ step =>
        cases step with
        | begin | link => exact outside
        | exchange pc =>
            have own := (inv_of_reachable earlier).given t _ (by rw [pc]; rfl)
            rw [List.mem_append, List.mem_singleton]
            exact not_or_intro outside own.symm
    | pop step => cases step <;> exact outside

/-- In every run, watched from its beginning, nodes leave in their order, and a call finds
nothing only if there has been a moment while it ran. -/
theorem fifo (reachable : (system Thread stub).Reachable s) :
    (∃ moment, (watched Thread stub).Reachable (s, moment)) ∧
      ∀ moment, (watched Thread stub).Reachable (s, moment) → Fifo stub s moment := by
  refine ⟨reachable.watch False note, fun moment watching => ?_⟩
  have inv := inv_of_reachable reachable
  have listed (x : Node) (path : Reaches s.next s.tail x ∨ Reaches s.next s.head x) :
      x ∈ s.nodes := by
    rcases path with fromTail | fromHead
    · exact inv.reaches_mem inv.tail_mem fromTail
    · exact inv.reaches_mem inv.head_mem fromHead
  have order : s.popped <+: s.pushed := ⟨_, inv.contents⟩
  refine ⟨order, ⟨fun member => stub_not_pushed reachable (order.subset member), ?_⟩,
    ⟨List.nodup_iff_count_le_one.mp inv.nodup stub, ?_⟩, listed,
    fun _ _ step => step.taken inv, ?_, (watches_of_reachable watching).null, ?_⟩
  · intro pc
    have ok := inv.consumer
    rw [pc] at ok
    exact ok rfl
  · intro x y first second
    exact Follows.unique_first inv.nodup (inv.linkTo_follows first) (inv.linkTo_follows second)
  · intro x own outside
    have absent : x ∉ s.nodes := fun member => outside (inv.mem_unpopped.mpr ⟨member, own⟩)
    refine
    ⟨fun path => absent (listed x (.inl path)), fun path => absent (listed x (.inr path)), ?_⟩
    intro prev newNode linking
    have follows := (inv.linking prev newNode linking).1
    constructor
    · rintro rfl
      exact absent follows.mem_first
    · rintro rfl
      exact absent follows.mem_second
  · intro t held pc
    have ok := inv.producers t
    rw [pc] at ok
    exact ok rfl

/-- The consumer finds nothing behind node 1, because the producer of node 2 has not linked
it. Then it pops both, with the stub behind node 2, and finds nothing; and node 1 is
pushed again. -/
theorem fifo_split : ∃ (s : State Nat Bool) (moment : Prop),
    (watched Bool 0).Reachable (s, moment) ∧ s.popped = [1, 2] ∧ s.pushed = [1, 2, 1] ∧
      s.consumer = .returned none ∧ s.pops = 4 ∧ s.nodes = [0, 1] ∧ Fifo 0 s moment := by
  have go {s after : State Nat Bool} {moment : Prop} {label : Option Bool}
      (reached : (watched Bool 0).Reachable (s, moment)) (step : Step 0 s label after) :
      (watched Bool 0).Reachable (after, note moment s label after) := reached.watched step
  have start : (watched Bool 0).Reachable
      ({ head := 0, tail := 0, next := fun _ => none, nodes := [0] }, False) :=
    .init ⟨⟨_, rfl, rfl⟩, rfl⟩
  have given := go start (.push (.begin (t := true) rfl (by decide : 1 ≠ 0) (by decide) nofun))
  have first := go (go given (.push (.exchange (t := true) rfl))) (.push (.link (t := true) rfl))
  have second := go first
    (.push (.begin (t := false) rfl (by decide : 2 ≠ 0) (by decide) (by decide)))
  have split := go second (.push (.exchange (t := false) rfl))
  have called := go (go split (.pop (.begin rfl))) (.pop (.skip rfl rfl rfl))
  have missed := go (go called (.pop (.miss (.inr rfl) rfl))) (.pop (.behind rfl (by decide)))
  have joined := go missed (.push (.link (t := false) rfl))
  have one := go (go joined (.pop (.begin rfl)))
    (.pop (.take (.inl ⟨rfl, by decide⟩) rfl))
  have alone := go (go one (.pop (.begin rfl))) (.pop (.miss (.inl ⟨rfl, by decide⟩) rfl))
  have stored := go (go alone (.pop (.last rfl rfl))) (.pop (.stubStore rfl))
  have pushed := go (go stored (.pop (.stubExchange rfl))) (.pop (.stubLink rfl))
  have two := go pushed (.pop (.take (.inr (.inr rfl)) rfl))
  have empty := go (go two (.pop (.begin rfl))) (.pop (.empty rfl rfl rfl))
  have again := go empty
    (.push (.begin (t := true) rfl (by decide : 1 ≠ 0) (by decide) (by decide)))
  have linked := go (go again (.push (.exchange (t := true) rfl)))
    (.push (.link (t := true) rfl))
  exact ⟨_, _, linked, rfl, rfl, rfl, rfl, rfl,
    (fifo linked.of_watch).2 _ linked⟩

end Fifo

end NgrCore.MpscQueue
