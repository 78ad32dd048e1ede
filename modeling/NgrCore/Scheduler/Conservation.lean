import NgrCore.Scheduler.Lifecycle
import NgrCore.Scheduler.Shutdown

/-!
Owns the operations of a whole run: what every step of the scheduler does to them, and that a
run keeps the promise of `Lifecycle`.

Proves that an operation is never in two places, that it gets no CQE that is not its own, and
that it is settled exactly as often as it is handed over, when the scheduler ends in order.
-/

namespace NgrCore.Scheduler

open NgrCore.Library

section Definitions

variable (config : Config)

/-- A remote `_M_submit` of an io operation still owns it. -/
def Call.Keeps (call : Call) (op : Addr) : Prop :=
  (∃ queue, call.kind = .submit queue op ∧ queue ∈ config.ioRemote) ∧ call.holding = some op

/-- The picture of a state. -/
def view (s : State) : View where
  remote op := ∃ i, (s.call i).Keeps config op
  pending := s.loop.ioPending
  published := s.kernel.sq
  inflight := s.kernel.inflight
  posted := s.kernel.cq

/-- The runs of the scheduler, with the moves its steps do to the operations. -/
def moving (pending : List Addr) : System State (Label × Move) where
  Init s := ∃ now, s = initial config now pending
  Step s event next := Step config s event.1 next ∧
    Moves (view config s) event.2 (view config next)

/-- Those in which nobody hands over an operation that the scheduler has. -/
def operations (pending : List Addr) : System State (Label × Move) :=
  (moving config pending).restrict fun s event => Fresh (view config s) event.2

end Definitions

section Calls

variable {config : Config} {call : Nat → Call} {i : Nat} {changed : Call} {op : Addr}

theorem Call.not_keeps_idle {call : Call} (idle : call.pc = .idle) : ¬ call.Keeps config op := by
  intro keeps
  exact (Call.holding_eq_some.mp keeps.2).2.1 idle

theorem exists_keeps_update :
    (∃ j, (Function.update call i changed j).Keeps config op) ↔
      changed.Keeps config op ∨ ∃ j, j ≠ i ∧ (call j).Keeps config op := by
  constructor
  · intro keeps
    obtain ⟨j, keeps⟩ := keeps
    by_cases this : j = i
    · subst this
      rw [Function.update_self] at keeps
      exact .inl keeps
    · rw [Function.update_of_ne this] at keeps
      exact .inr ⟨j, this, keeps⟩
  · intro either
    rcases either with keeps | ⟨j, this, keeps⟩
    · refine ⟨i, ?_⟩
      rw [Function.update_self]
      exact keeps
    · refine ⟨j, ?_⟩
      rw [Function.update_of_ne this]
      exact keeps

theorem exists_keeps_split : (∃ j, (call j).Keeps config op) ↔
    (call i).Keeps config op ∨ ∃ j, j ≠ i ∧ (call j).Keeps config op := by
  rw [← @exists_keeps_update config call i (call i), Function.update_eq_self]

theorem Call.keeps_move {call : Call} {pc : CallPc} (active : call.pc ≠ .idle)
    (accepted : call.pc ≠ .rejected) (still : pc ≠ .idle) (notRejected : pc ≠ .rejected) :
    ({ call with pc := pc } : Call).Keeps config op ↔ call.Keeps config op := by
  unfold Call.Keeps
  rw [Call.holding_eq_some, Call.holding_eq_some]
  simp [active, accepted, still, notRejected]

/-- A remote `_M_submit` that has not pushed its operation keeps it. -/
theorem Owned.keeps (owned : Owned config call) {queue : Nat}
    (kind : (call i).kind = .submit queue op) (io : queue ∈ config.ioRemote) {n : Int}
    (pc : (call i).pc = .reserve n) : (call i).Keeps config op := by
  refine ⟨⟨queue, kind, io⟩, owned.preparing kind ?_ ?_ ?_⟩
  · rw [pc]
    nofun
  · rw [pc]
    nofun
  · rw [pc]
    rfl

/-- `_M_accept_remote_request` takes exactly the operations it takes. -/
theorem Owned.take_keeps (owned : Owned config call) {queue : Nat} {taken : List Addr}
    (members : ∀ op, op ∈ taken ↔ ∃ i, (call i).LinkedIn queue op) (index : Nat) :
    (∃ i, ((call i).take index taken).Keeps config op) ↔
      (∃ i, (call i).Keeps config op) ∧ op ∉ taken := by
  constructor
  · intro keeps
    obtain ⟨i, ⟨registered, holds⟩⟩ := keeps
    rw [Call.take_kind] at registered
    have fresh := (Call.holding_eq_some.mp holds).2.2.2
    obtain ⟨unlinked, same⟩ := owned.take_holding members index i fresh
    rw [same] at holds
    refine ⟨⟨i, registered, holds⟩, ?_⟩
    intro member
    obtain ⟨j, linked⟩ := (members op).mp member
    have mine := owned.distinct j i op linked.holding holds
    subst mine
    exact unlinked op linked
  · intro both
    obtain ⟨⟨i, registered, holds⟩, absent⟩ := both
    refine ⟨i, ?_⟩
    have same : (call i).take index taken = call i := by
      apply Call.take_of_not_holding
      intro other member also
      rw [holds] at also
      exact absent (Option.some.inj also ▸ member)
    rw [same]
    exact ⟨registered, holds⟩

end Calls

/-! ### The moves of the scheduler -/

section Steps

variable {config : Config} {s next : State} {label : Label}

/-- A step that leaves the lists alone, and the operations that remote calls keep. -/
theorem quiet_view (remote : ∀ op, (∃ i, (next.call i).Keeps config op) ↔
      ∃ i, (s.call i).Keeps config op)
    (pending : next.loop.ioPending = s.loop.ioPending) (kernel : next.kernel.sq = s.kernel.sq ∧
      next.kernel.inflight = s.kernel.inflight ∧ next.kernel.cq = s.kernel.cq) :
    view config next = view config s := by
  unfold view
  rw [pending, kernel.1, kernel.2.1, kernel.2.2]
  simp only [remote]

theorem quiet_moves (same : view config next = view config s) :
    ∃ move, Moves (view config s) move (view config next) := by
  rw [same]
  exact ⟨_, .quiet⟩

theorem AcceptStep.moves (step : AcceptStep config s label next) (remote : Remote config s) :
    ∃ move, Moves (view config s) move (view config next) := by
  cases step with
  | take pc unchanged created chain =>
      rename_i site queue todo old fuel links reversed taken
      rw [← unchanged] at created
      obtain ⟨nodup, members, _⟩ := remote.queued.taken created chain
      have keeps : ∀ op, (∃ i, ((s.call i).take s.log.accepts taken).Keeps config op) ↔
          (∃ i, (s.call i).Keeps config op) ∧ op ∉ taken := fun op =>
        remote.queued.owned.take_keeps members s.log.accepts
      by_cases io : queue ∈ config.ioRemote
      · have owned : ∀ op ∈ taken, (view config s).remote op := by
          intro op member
          obtain ⟨i, linked⟩ := (members op).mp member
          exact ⟨i, ⟨queue, linked.1, io⟩, linked.holding⟩
        have accepted := Moves.accept owned nodup
        refine ⟨.accept taken, ?_⟩
        convert accepted using 1
        unfold view
        simp only [if_pos io, keeps]
      · apply quiet_moves
        apply quiet_view
        · intro op
          rw [keeps]
          constructor
          · exact fun both => both.1
          · intro kept
            refine ⟨kept, ?_⟩
            intro member
            obtain ⟨i, ⟨⟨other, kind, also⟩, holds⟩⟩ := kept
            obtain ⟨j, linked⟩ := (members op).mp member
            have mine := remote.queued.owned.distinct j i op linked.holding holds
            subst mine
            exact io ((CallKind.submit.inj (linked.1.symm.trans kind)).1 ▸ also)
        · exact if_neg io
        · exact ⟨rfl, rfl, rfl⟩
  | _ => exact ⟨_, .quiet⟩

theorem CompleteStep.moves (step : CompleteStep s label next) :
    ∃ move, Moves (view config s) move (view config next) := by
  cases step with
  | handle pushes pc posted => exact ⟨_, .handle pushes posted⟩
  | _ => exact ⟨_, .quiet⟩

theorem SubmitStep.moves (step : SubmitStep config s label next) :
    ∃ move, Moves (view config s) move (view config next) := by
  cases step with
  | publish pc pending => exact ⟨_, .publish pending⟩
  | stop pushes pc pending => exact ⟨_, .stop pushes pending⟩
  | _ => exact ⟨_, .quiet⟩

theorem TimerStep.moves (step : TimerStep config s label next) :
    ∃ move, Moves (view config s) move (view config next) := by
  cases step with
  | manualStop pushes => exact ⟨_, .push pushes⟩
  | stop pushes => exact ⟨_, .push pushes⟩
  | _ => exact ⟨_, .quiet⟩

theorem EnterStep.moves (step : EnterStep config s label next) :
    ∃ move, Moves (view config s) move (view config next) := by
  cases step with
  | consume => exact ⟨_, .consume (toSubmit s.loop)⟩
  | short count => exact ⟨_, .consume count⟩
  | _ => exact ⟨_, .quiet⟩

theorem KernelStep.moves (step : KernelStep config s label next) :
    ∃ move, Moves (view config s) move (view config next) := by
  cases step with
  | postMore cqe consumed room more =>
      exact ⟨_, .postMore consumed more⟩
  | postLast cqe consumed room last =>
      exact ⟨_, .postLast consumed last⟩
  | tick => exact ⟨_, .quiet⟩

/-- A step of a call that keeps what it kept before. -/
theorem call_view (i : Nat) (changed : Call) (calls : next.call = Function.update s.call i changed)
    (same : ∀ op, changed.Keeps config op ↔ (s.call i).Keeps config op)
    (loop : next.loop = s.loop) (kernel : next.kernel = s.kernel) :
    view config next = view config s := by
  apply quiet_view
  · intro op
    rw [calls, exists_keeps_update, same, ← exists_keeps_split]
  · rw [loop]
  · rw [kernel]
    exact ⟨rfl, rfl, rfl⟩

theorem call_moves_on (i : Nat) (pc : CallPc)
    (calls : next.call = Function.update s.call i { s.call i with pc := pc })
    (active : (s.call i).pc ≠ .idle) (accepted : (s.call i).pc ≠ .rejected)
    (still : pc ≠ .idle) (notRejected : pc ≠ .rejected)
    (loop : next.loop = s.loop) (kernel : next.kernel = s.kernel) :
    ∃ move, Moves (view config s) move (view config next) := by
  apply quiet_moves
  apply call_view i _ calls _ loop kernel
  intro op
  exact Call.keeps_move active accepted still notRejected

theorem beginSubmit_moves (i queue : Nat) (op : Addr) (idle : (s.call i).pc = .idle)
    (calls : next.call = Function.update s.call i { kind := .submit queue op, pc := .reserve 0 })
    (loop : next.loop = s.loop) (kernel : next.kernel = s.kernel) :
    ∃ move, Moves (view config s) move (view config next) := by
  have keeps : ∀ other, ({ kind := .submit queue op, pc := .reserve 0 } : Call).Keeps config other ↔
      other = op ∧ queue ∈ config.ioRemote := by
    intro other
    unfold Call.Keeps
    rw [Call.holding_eq_some]
    constructor
    · intro both
      obtain ⟨⟨also, kind, io⟩, _⟩ := both
      have same := CallKind.submit.inj kind
      exact ⟨same.2.symm, same.1 ▸ io⟩
    · intro both
      rw [both.1]
      exact ⟨⟨queue, rfl, both.2⟩, ⟨queue, rfl⟩, nofun, nofun, rfl⟩
  have before : ∀ other, ¬ (s.call i).Keeps config other := fun other =>
    Call.not_keeps_idle idle
  by_cases io : queue ∈ config.ioRemote
  · refine ⟨.hand op, ?_⟩
    have handed : Moves (view config s) (.hand op) _ := .hand op
    convert handed using 1
    unfold view
    rw [loop, kernel]
    congr 1
    funext other
    rw [calls, eq_iff_iff, exists_keeps_update, keeps]
    show _ ↔ (∃ j, (s.call j).Keeps config other) ∨ other = op
    rw [@exists_keeps_split config s.call i other]
    simp [before other, io, or_comm]
  · apply quiet_moves
    apply call_view i _ calls _ loop kernel
    intro other
    rw [keeps]
    simp [io, before other]

theorem CallStep.moves (step : CallStep config s label next) (remote : Remote config s) :
    ∃ move, Moves (view config s) move (view config next) := by
  have owned := remote.queued.owned
  cases step with
  | beginSubmit i queue op idle => exact beginSubmit_moves i queue op idle rfl rfl rfl
  | beginStop i idle =>
      apply quiet_moves
      refine call_view i _ rfl ?_ rfl rfl
      intro op
      exact iff_of_false (fun keeps => nomatch keeps.1) (Call.not_keeps_idle idle)
  | beginNotify i idle =>
      apply quiet_moves
      refine call_view i _ rfl ?_ rfl rfl
      intro op
      exact iff_of_false (fun keeps => nomatch keeps.1) (Call.not_keeps_idle idle)
  | rejectIo i kind pc io =>
      rename_i queue op
      have keeps := owned.keeps kind io pc
      have mine : ∀ j other, (s.call j).Keeps config other → (j = i ↔ other = op) := by
        intro j other also
        constructor
        · intro same
          subst same
          exact Option.some.inj (also.2.symm.trans keeps.2)
        · intro same
          subst same
          exact owned.distinct j i other also.2 keeps.2
      have rejected : Moves (view config s) (.reject op) _ := .reject ⟨i, keeps⟩
      refine ⟨.reject op, ?_⟩
      convert rejected using 1
      unfold view
      congr 1
      funext other
      rw [eq_iff_iff, exists_keeps_update]
      constructor
      · intro either
        rcases either with also | ⟨j, different, also⟩
        · exact absurd rfl (Call.holding_eq_some.mp also.2).2.2.1
        · exact ⟨⟨j, also⟩, mt (mine j other also).mpr different⟩
      · intro both
        obtain ⟨⟨j, also⟩, different⟩ := both
        exact .inr ⟨j, mt (mine j other also).mp different, also⟩
  | rejectTimer i kind pc dr =>
      apply quiet_moves
      refine call_view i _ rfl ?_ rfl rfl
      intro op
      apply iff_of_false
      · intro keeps
        exact absurd rfl (Call.holding_eq_some.mp keeps.2).2.2.1
      · intro keeps
        obtain ⟨⟨queue, same, io⟩, _⟩ := keeps
        exact dr ((CallKind.submit.inj (kind.symm.trans same)).1 ▸ io)
  | reserve i pc =>
      exact call_moves_on i _ rfl (by rw [pc]; nofun) (by rw [pc]; nofun) nofun nofun rfl rfl
  | reserveRetry i pc =>
      exact call_moves_on i _ rfl (by rw [pc]; nofun) (by rw [pc]; nofun) nofun nofun rfl rfl
  | loadHead i kind pc =>
      exact call_moves_on i _ rfl (by rw [pc]; nofun) (by rw [pc]; nofun) nofun nofun rfl rfl
  | linkRetry i kind pc =>
      exact call_moves_on i _ rfl (by rw [pc]; nofun) (by rw [pc]; nofun) nofun nofun rfl rfl
  | link i kind pc =>
      exact call_moves_on i _ rfl (by rw [pc]; nofun) (by rw [pc]; nofun) nofun nofun rfl rfl
  | release i pc =>
      exact call_moves_on i _ rfl (by rw [pc]; nofun) (by rw [pc]; nofun) nofun nofun rfl rfl
  | setStop i pc =>
      exact call_moves_on i _ rfl (by rw [pc]; nofun) (by rw [pc]; nofun) nofun nofun rfl rfl
  | exchangeAsleep i pc =>
      exact call_moves_on i _ rfl (by rw [pc]; nofun) (by rw [pc]; nofun) nofun nofun rfl rfl
  | exchangeAwake i pc =>
      exact call_moves_on i _ rfl (by rw [pc]; nofun) (by rw [pc]; nofun) nofun nofun rfl rfl
  | lock i pc =>
      exact call_moves_on i _ rfl (by rw [pc]; nofun) (by rw [pc]; nofun) nofun nofun rfl rfl
  | unlock i pc =>
      exact call_moves_on i _ rfl (by rw [pc]; nofun) (by rw [pc]; nofun) nofun nofun rfl rfl
  | write i pc =>
      exact call_moves_on i _ rfl (by rw [pc]; nofun) (by rw [pc]; nofun) nofun nofun rfl rfl

/-- Every step of the scheduler is one of the moves. -/
theorem Step.moves (step : Step config s label next) (remote : Remote config s) :
    ∃ move, Moves (view config s) move (view config next) := by
  cases step with
  | accept step => exact step.moves remote
  | complete step => exact step.moves
  | submit step => exact step.moves
  | timer step => exact step.moves
  | enter step => exact step.moves
  | run step =>
      have call : next.call = s.call := by cases step <;> rfl
      have pending : next.loop.ioPending = s.loop.ioPending := by cases step <;> rfl
      have kernel : next.kernel = s.kernel := by cases step <;> rfl
      apply quiet_moves
      apply quiet_view
      · intro op
        rw [call]
      · exact pending
      · rw [kernel]
        exact ⟨rfl, rfl, rfl⟩
  | call step => exact step.moves remote
  | kernel step => exact step.moves

/-! ### Runs -/

variable {pending : List Addr} {trace : List (Label × Move)}

theorem initial_follows (config : Config) (now : Int) (distinct : pending.Nodup) :
    Follows (view config (initial config now pending))
      fun op => if op ∈ pending then .pending else .idle := by
  constructor
  · intro place somewhere op
    cases place with
    | idle => exact absurd rfl somewhere
    | remote =>
        apply iff_of_false
        · intro keeps
          obtain ⟨i, keeps⟩ := keeps
          exact Call.not_keeps_idle rfl keeps
        · split <;> nofun
    | pending => simp [View.At, view, initial]
    | published => simp [View.At, view, initial, apply_ite (· = Stage.published)]
    | inflight => simp [View.At, view, initial, apply_ite (· = Stage.inflight)]
    | finished => simp [View.At, view, initial, lasts, apply_ite (· = Stage.finished)]
  · exact ⟨distinct, List.nodup_nil, List.nodup_nil, List.nodup_nil, trivial⟩

theorem exists_moves {labels : List Label} (run : (system config).Traced labels s) :
    ∃ pending trace, trace.map Prod.fst = labels ∧ (moving config pending).Traced trace s := by
  induction run with
  | init initial =>
      obtain ⟨now, pending, rfl⟩ := initial
      exact ⟨pending, [], rfl, .init ⟨now, rfl⟩⟩
  | @step labels s next label earlier step inductionHypothesis =>
      obtain ⟨pending, trace, same, run⟩ := inductionHypothesis
      obtain ⟨move, moves⟩ := step.moves (reachable_remote earlier.reachable)
      have extended : (moving config pending).Step s (label, move) next := ⟨step, moves⟩
      exact ⟨pending, trace ++ [(label, move)], by simp [same], run.step extended⟩

theorem operations_simulate (distinct : pending.Nodup)
    (run : (operations config pending).Traced trace s) :
    ∃ stage, (lifecycle pending).Traced (trace.map Prod.snd) stage ∧
      Follows (view config s) stage := by
  induction run with
  | init start =>
      obtain ⟨now, rfl⟩ := start
      exact ⟨_, .init rfl, initial_follows config now distinct⟩
  | step earlier step inductionHypothesis =>
      obtain ⟨stage, promised, follows⟩ := inductionHypothesis
      obtain ⟨fresh, _, moves⟩ := step
      obtain ⟨after, moved, kept⟩ := moves.follows follows fresh
      refine ⟨after, ?_, kept⟩
      rw [List.map_append]
      exact promised.step moved

/-- What comes in is settled, or the scheduler has it. -/
theorem operations_balance (distinct : pending.Nodup)
    (run : (operations config pending).Traced trace s) (op : Addr) :
    ((view config s).Has op →
      (if op ∈ pending then 1 else 0) + handed op (trace.map Prod.snd) =
        settled op (trace.map Prod.snd) + 1) ∧
    (¬ (view config s).Has op →
      (if op ∈ pending then 1 else 0) + handed op (trace.map Prod.snd) =
        settled op (trace.map Prod.snd)) := by
  obtain ⟨stage, promised, follows⟩ := operations_simulate distinct run
  have balance := lifecycle_balance promised op
  rw [follows.has op]
  constructor
  · intro busy
    rw [balance, Stage.inside, if_neg busy]
  · intro idle
    rw [balance, Stage.inside, if_pos (not_not.mp idle)]
    rfl

/-- A remote `_M_submit` of the io operation that has not been told yet whether the scheduler
takes it. -/
def Call.Undecided (config : Config) (call : Call) (op : Addr) : Prop :=
  ∃ queue n, call.kind = .submit queue op ∧ queue ∈ config.ioRemote ∧ call.pc = .reserve n

/-- At the end the scheduler has the operations of the undecided calls, and no other. -/
theorem finished_has (reachable : ((system config).restrict EndsInOrder).Reachable s) {m : Nat}
    (pc : s.loop.pc = .finished m) (op : Addr) :
    (view config s).Has op ↔ ∃ i, (s.call i).Undecided config op := by
  have emptied : s.loop.pc.Emptied s.loop.ioPending s.kernel := reachable_emptied reachable
  have remote := reachable_remote reachable.of_restrict
  rw [pc] at emptied
  obtain ⟨pending, published, inflight, posted⟩ := emptied
  have last : s.loop.pc.AcceptedLast := by
    rw [pc]
    exact ⟨rfl, rfl⟩
  have outside := remote.counted.outside (remote.closed last.1)
  constructor
  · intro has
    obtain ⟨place, here⟩ := has
    cases place with
    | idle => exact here.elim
    | remote =>
        obtain ⟨i, ⟨queue, kind, io⟩, holds⟩ := here
        obtain ⟨_, active, accepted, fresh⟩ := Call.holding_eq_some.mp holds
        refine ⟨i, queue, ?_⟩
        have notInside := outside i
        have notStop := (remote.queued.owned.registered i queue op kind).2
        have drained := remote.drained last kind
        rw [fresh] at drained
        cases stands : (s.call i).pc with
        | reserve n => exact ⟨n, kind, io, rfl⟩
        | idle => exact absurd stands active
        | rejected => exact absurd stands accepted
        | setStop => exact absurd stands notStop
        | loadHead =>
            rw [stands] at notInside
            exact absurd notInside nofun
        | link old =>
            rw [stands] at notInside
            exact absurd notInside nofun
        | _ =>
            rw [stands] at drained
            exact absurd (drained rfl) nofun
    | pending => exact absurd pending (List.ne_nil_of_mem here)
    | published => exact absurd published (List.ne_nil_of_mem here)
    | inflight => exact absurd inflight (List.ne_nil_of_mem here)
    | finished =>
        have posted : s.kernel.cq = [] := posted
        have last : op ∈ lasts s.kernel.cq := here
        rw [posted] at last
        exact absurd last List.not_mem_nil
  · intro undecided
    obtain ⟨i, queue, n, kind, io, reserving⟩ := undecided
    exact ⟨.remote, i, remote.queued.owned.keeps kind io reserving⟩

end Steps

/-! ### A run that ends

Operation 7 is pending when a stop is requested. It is stopped, submits itself again, and is
stopped again. -/

/-- The runs that end in order, with their moves. -/
abbrev orderly (config : Config) (pending : List Addr) : System State (Label × Move) :=
  (operations config pending).restrict fun s event => EndsInOrder s event.1

section Run

variable {config : Config} {pending : List Addr} {trace : List (Label × Move)} {s next : State}
  {label : Label}

theorem orderly_step (run : (orderly config pending).Traced trace s) {move : Move}
    (condition : EndsInOrder s label) (step : Step config s label next)
    (moves : Moves (view config s) move (view config next)) (fresh : Fresh (view config s) move) :
    (orderly config pending).Traced (trace ++ [(label, move)]) next :=
  run.step ⟨condition, fresh, step, moves⟩

theorem orderly_quiet (run : (orderly config pending).Traced trace s)
    (step : Step config s .tau next) (same : view config next = view config s) :
    (orderly config pending).Traced (trace ++ [(.tau, .quiet)]) next := by
  have moves : Moves (view config s) .quiet (view config next) := by
    rw [same]
    exact .quiet
  exact orderly_step run (EndsInOrder.quiet s) step moves trivial

theorem orderly_empty (run : (orderly config pending).Traced trace s) {site : Site} {queue : Nat}
    {todo : List Nat} (pc : s.loop.pc = .accept site (queue :: todo))
    (empty : s.shared.head queue = none) :
    (orderly config pending).Traced (trace ++ [(.tau, .quiet)] ++ [(.tau, .quiet)])
      { s with loop.pc := .accept site todo } := by
  have loaded := orderly_quiet run (.accept (.load pc)) rfl
  refine orderly_quiet loaded ?_ rfl
  have created : IntrusiveQueue.createReversed s.shared.next 0 none =
      some (s.shared.next, ⟨none, none⟩) := rfl
  have nothing : Chain s.shared.next none [] := rfl
  have head : Function.update s.shared.head queue none = s.shared.head := by
    rw [← empty]
    exact Function.update_eq_self queue s.shared.head
  have taken := @AcceptStep.take config
    { s with loop.pc := .reset site queue todo (s.shared.head queue) } _ _ _ _ _ _ _ _ rfl rfl
    (by rw [← created, ← empty]) nothing
  simp only [Call.take_nil, List.append_nil, ite_self, head] at taken
  exact .accept taken

theorem orderly_operations (run : (orderly config pending).Traced trace s) :
    (operations config pending).Traced trace s := by
  have free : (operations config pending).Traced (trace.map id) s := by
    apply run.relabel id
    · exact fun _ start => start
    · exact fun _ _ _ step => step.2
  rw [List.map_id] at free
  exact free

theorem orderly_ends (run : (orderly config pending).Traced trace s) :
    ((system config).restrict EndsInOrder).Reachable s := by
  have ordered : ((system config).restrict EndsInOrder).Traced (trace.map Prod.fst) s := by
    apply run.relabel Prod.fst
    · intro state start
      obtain ⟨now, start⟩ := start
      exact ⟨now, pending, start⟩
    · intro state event next step
      exact ⟨step.1, step.2.2.1⟩
  exact ordered.reachable

theorem stopped_run : ∃ trace s, (orderly small [7]).Traced trace s ∧
    s.loop.pc = .finished 0 ∧ (¬ ∃ i, (s.call i).Undecided small 7) ∧
    handed 7 (trace.map Prod.snd) = 1 := by
  have start : (orderly small [7]).Traced [] (initial small 0 [7]) := .init ⟨0, rfl⟩
  have begun := orderly_quiet start (.call (.beginStop 0 rfl)) (call_view 0 _ rfl (by
    intro op
    exact iff_of_false (fun keeps => nomatch keeps.1) (Call.not_keeps_idle rfl)) rfl rfl)
  have asked := orderly_quiet begun (.call (.setStop 0 rfl)) (call_view 0 _ rfl (by
    intro op
    exact iff_of_false (fun keeps => nomatch keeps.1) (fun keeps => nomatch keeps.1)) rfl rfl)
  have accepted := orderly_empty (orderly_empty asked rfl rfl) rfl rfl
  have head := orderly_quiet accepted (.accept (.doneLoop rfl)) rfl
  have pass := orderly_quiet head (.complete (.begin rfl)) rfl
  have drained := orderly_quiet pass (.complete (.doneLoop rfl rfl)) rfl
  have loaded := orderly_quiet drained (.submit (.stopLoad rfl)) rfl
  have submitting := orderly_quiet loaded (.submit (.begin rfl)) rfl
  have room : 0 < 4 := by decide
  have itself : ∀ view : View, Fresh view (.stop 7 [7]) := by
    intro view
    refine ⟨List.nodup_singleton 7, ?_⟩
    intro other member different
    exact absurd (List.mem_singleton.mp member) different
  have again := orderly_step submitting (EndsInOrder.quiet _)
    (.submit (.stop [7] rfl rfl room rfl)) (.stop [7] rfl) (itself _)
  have nothing : ∀ view : View, Fresh view (.stop 7 []) := by
    intro view
    exact ⟨List.nodup_nil, fun other member => absurd member List.not_mem_nil⟩
  have stopped := orderly_step again (EndsInOrder.quiet _)
    (.submit (.stop [] rfl rfl room rfl)) (.stop [] rfl) (nothing _)
  have added := orderly_step stopped (EndsInOrder.adds fun _ => rfl)
    (.submit (.done rfl (.inl rfl))) .quiet trivial
  have tested := orderly_quiet added (.timer (.doneLoop rfl)) rfl
  have leaves : ∀ s, EndsInOrder s .exit := fun _ => ⟨nofun, nofun, nofun, nofun, nofun⟩
  have left := orderly_step tested (leaves _) (.run (.exit rfl (.inl rfl))) .quiet trivial
  have closed := orderly_quiet left (.run (.close rfl rfl)) rfl
  have last := orderly_empty (orderly_empty closed rfl rfl) rfl rfl
  have stopping := orderly_quiet last (.accept (.doneFinal rfl)) rfl
  have finishing := orderly_quiet stopping (.submit (.begin rfl)) rfl
  have submitted := orderly_step finishing (EndsInOrder.adds fun _ => rfl)
    (.submit (.done rfl (.inl rfl))) .quiet trivial
  have entering := orderly_quiet submitted (.timer (.doneFinal rfl)) rfl
  have waiting := orderly_step entering (EndsInOrder.quiet _)
    (.enter (.consume rfl (Nat.zero_le _))) (.consume 0) trivial
  have woken : ∀ s : State, s.loop.pc = .wait .final 0 0 none → EndsInOrder s .wake := by
    intro s pc
    refine ⟨nofun, nofun, nofun, ?_, nofun⟩
    intro _ minComplete submitted deadline also
    have same : 0 = minComplete := (LoopPc.wait.inj (pc.symm.trans also)).2.1
    omega
  have ready := orderly_step waiting (woken _ rfl) (.enter (.ready rfl (Nat.zero_le _))) .quiet
    trivial
  have normal : ¬ Fatal 0 := by decide
  have completing := orderly_quiet ready (.enter (.complete rfl normal)) rfl
  have finished := orderly_quiet completing (.complete (.doneFinal rfl rfl)) rfl
  have other : ∀ i queue, (Function.update (Function.update (fun _ => ({} : Call)) 0
      { kind := .requestStop, pc := .setStop }) 0
      { kind := .requestStop, pc := .exchange } i).kind ≠ .submit queue 7 := by
    intro i queue
    by_cases first : i = 0
    · rw [first, Function.update_self]
      nofun
    · rw [Function.update_of_ne first, Function.update_of_ne first]
      nofun
  refine ⟨_, _, finished, rfl, ?_, rfl⟩
  intro undecided
  obtain ⟨i, queue, _, kind, _⟩ := undecided
  exact other i queue kind

end Run

/-! ### Results -/

/-- Every step of the scheduler does one of the moves to the operations, so every run has its
moves, and in every run an operation lives through the stages in order and is in the place its
stage says, once. -/
theorem operations_live (config : Config) (pending : List Addr) (distinct : pending.Nodup) :
    (∀ s label next, (system config).Reachable s → Step config s label next →
      ∃ move, Moves (view config s) move (view config next)) ∧
    (∀ labels s, (system config).Traced labels s →
      ∃ start trace, trace.map Prod.fst = labels ∧ (moving config start).Traced trace s) ∧
    ∀ trace s, (operations config pending).Traced trace s →
      ∃ stage, (lifecycle pending).Traced (trace.map Prod.snd) stage ∧
        Follows (view config s) stage := by
  refine ⟨?_, ?_, ?_⟩
  · intro s label next reachable step
    exact step.moves (reachable_remote reachable)
  · intro labels s run
    exact exists_moves run
  · intro trace s run
    exact operations_simulate distinct run

theorem operations_live_stopped : ∃ (trace : List (Label × Move)) (s : State)
    (stage : Addr → Stage), (operations small [7]).Traced trace s ∧ s.loop.pc = .finished 0 ∧
    (lifecycle [7]).Traced (trace.map Prod.snd) stage ∧ Follows (view small s) stage := by
  obtain ⟨trace, s, run, pc, _⟩ := stopped_run
  obtain ⟨stage, promised, follows⟩ :=
    (operations_live small [7] (by decide)).2.2 trace s (orderly_operations run)
  exact ⟨trace, s, stage, orderly_operations run, pc, promised, follows⟩

/-- At any moment of a run, an operation was settled as often as it was handed over, but for
the one time that the scheduler has it. -/
theorem settled_as_handed (config : Config) (pending : List Addr) (distinct : pending.Nodup)
    (trace : List (Label × Move)) (s : State) (run : (operations config pending).Traced trace s)
    (op : Addr) :
    ((view config s).Has op →
      (if op ∈ pending then 1 else 0) + handed op (trace.map Prod.snd) =
        settled op (trace.map Prod.snd) + 1) ∧
    (¬ (view config s).Has op →
      (if op ∈ pending then 1 else 0) + handed op (trace.map Prod.snd) =
        settled op (trace.map Prod.snd)) :=
  operations_balance distinct run op

theorem settled_as_handed_stopped : ∃ (trace : List (Label × Move)) (s : State),
    (operations small [7]).Traced trace s ∧
    ¬ (view small s).Has 7 ∧ settled 7 (trace.map Prod.snd) = 2 := by
  obtain ⟨trace, s, run, pc, decided, once⟩ := stopped_run
  have free := orderly_operations run
  have gone := mt (finished_has (orderly_ends run) pc 7).mp decided
  have balance := (settled_as_handed small [7] (by decide) trace s free 7).2 gone
  rw [once] at balance
  exact ⟨trace, s, free, gone, balance.symm⟩

/-- Once `_M_run_until_stop` returned from a run that ends in order, every operation was
settled as often as it was handed over, but for those of calls that are still to be rejected. -/
theorem settled_at_end (config : Config) (pending : List Addr) (distinct : pending.Nodup)
    (trace : List (Label × Move)) (s : State)
    (run : ((operations config pending).restrict fun s event => EndsInOrder s event.1).Traced
      trace s)
    (m : Nat) (pc : s.loop.pc = .finished m) (op : Addr) :
    ((∃ i, (s.call i).Undecided config op) →
      (if op ∈ pending then 1 else 0) + handed op (trace.map Prod.snd) =
        settled op (trace.map Prod.snd) + 1) ∧
    ((¬ ∃ i, (s.call i).Undecided config op) →
      (if op ∈ pending then 1 else 0) + handed op (trace.map Prod.snd) =
        settled op (trace.map Prod.snd)) := by
  rw [← finished_has (orderly_ends run) pc]
  exact operations_balance distinct (orderly_operations run) op

theorem settled_at_end_stopped : ∃ (trace : List (Label × Move)) (s : State),
    (orderly small [7]).Traced trace s ∧
    s.loop.pc = .finished 0 ∧ handed 7 (trace.map Prod.snd) = 1 ∧
      settled 7 (trace.map Prod.snd) = 2 := by
  obtain ⟨trace, s, run, pc, decided, once⟩ := stopped_run
  have balance := (settled_at_end small [7] (by decide) trace s run 0 pc 7).2 decided
  rw [once] at balance
  exact ⟨trace, s, run, pc, once, balance.symm⟩

end NgrCore.Scheduler
