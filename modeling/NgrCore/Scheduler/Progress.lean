import NgrCore.Scheduler.RemoteSubmit

/-!
Owns the progress of the loop and of the calls from outside: who holds `__mut_`, what each
can still do by itself, and what it waits for.

Proves that nobody waits for somebody who waits: the loop waits for `__mut_` or for
`__n_submit_in_flight_` only while a call that can go on stands in its way, and a call only
while the loop or another call is about to unlock `__mut_`.
-/

namespace NgrCore.Scheduler

open NgrCore.Library

section Definitions

/-- The loop is between locking and unlocking `__mut_`. -/
def LoopPc.locked : LoopPc → Bool
  | .compareExchange => true
  | .top => true
  | .unlock _ => true
  | .skip => true
  | _ => false

/-- `__mut_` is held between its locking and its unlocking, and nowhere else. -/
structure Locking (s : State) : Prop where
  loop : s.shared.mutex = some .loop ↔ s.loop.pc.locked = true
  call : ∀ i, s.shared.mutex = some (.call i) ↔ (s.call i).pc = .unlock

/-- Where only a call of the remote `_M_submit` stands. -/
def CallPc.submitting : CallPc → Bool
  | .reserve _ => true
  | .loadHead => true
  | .link _ => true
  | .rejected => true
  | _ => false

/-- A call that stands there has an operation. -/
def Fitting (s : State) : Prop :=
  ∀ i, (s.call i).pc.submitting = true → ∃ queue op, (s.call i).kind = .submit queue op

/-! ### Steps of one party -/

inductive LoopStep (config : Config) : State → Label → State → Prop
  | accept {s next : State} {label : Label} :
      AcceptStep config s label next → LoopStep config s label next
  | complete {s next : State} {label : Label} :
      CompleteStep s label next → LoopStep config s label next
  | submit {s next : State} {label : Label} :
      SubmitStep config s label next → LoopStep config s label next
  | timer {s next : State} {label : Label} :
      TimerStep config s label next → LoopStep config s label next
  | enter {s next : State} {label : Label} :
      EnterStep config s label next → LoopStep config s label next
  | run {s next : State} {label : Label} :
      RunStep config s label next → LoopStep config s label next

def OwnStep (config : Config) (i : Nat) (s next : State) : Prop :=
  CallStep config s .tau next ∧ next.loop = s.loop ∧ next.kernel = s.kernel ∧
    ∀ j, j ≠ i → next.call j = s.call j

/-- The steps that a call still takes until it returns, if nobody else takes one. -/
def Call.left (shared : Shared) (call : Call) : Nat :=
  match call.pc, call.kind with
  | .reserve n, _ =>
      if n = noNewSubmit then 1 else if n = shared.nSubmitInFlight then 9 else 10
  | .loadHead, _ => 8
  | .link old, .submit queue _ => if old = shared.head queue then 6 else 7
  | .release, _ => 5
  | .setStop, _ => 5
  | .exchange, _ => 4
  | .lock, _ => 3
  | .unlock, _ => 2
  | .write, _ => 1
  | _, _ => 0

/-- The call has begun and has not returned. -/
def CallPc.active : CallPc → Bool
  | .idle => false
  | .returned => false
  | .rejected => false
  | _ => true

/-- A call can take a step of those that are left. -/
def CallAdvances (config : Config) (s : State) (i : Nat) : Prop :=
  ∃ next, OwnStep config i s next ∧
    (next.call i).left next.shared < (s.call i).left s.shared

/-- How far an iteration, or the end of `_M_run_until_stop`, still goes: the part of it that
the loop is in, and what is left of that part. -/
def State.rank (s : State) : Nat × Nat :=
  match s.loop.pc with
  | .accept .loop todo => (18, 3 * todo.length)
  | .reset .loop queue todo old =>
      (18, 3 * todo.length + if old = s.shared.head queue then 1 else 2)
  | .loopHead => (17, 0)
  | .complete .loop _ => (16, s.kernel.cq.length)
  | .stopLoad => (15, 0)
  | .submitBegin .loop _ => (14, 0)
  | .submit .loop _ _ _ _ => (13, s.loop.ioPending.length)
  | .timers .loop _ tmp => (12, tmp.length)
  | .exitTest => (11, 0)
  | .lock => (10, 0)
  | .compareExchange => (9, 0)
  | .top => (8, 0)
  | .unlock _ => (7, 0)
  | .syscall .loop _ _ => (6, 0)
  | .wait .loop _ _ _ => (5, 0)
  | .returned .loop _ => (4, 0)
  | .update _ => (3, 0)
  | .skip => (2, 0)
  | .enterReturned => (1, 0)
  | .close => (10, 0)
  | .accept .final todo => (9, 3 * todo.length)
  | .reset .final queue todo old =>
      (9, 3 * todo.length + if old = s.shared.head queue then 1 else 2)
  | .submitBegin .final _ => (8, 0)
  | .submit .final _ _ _ _ => (7, s.loop.ioPending.length)
  | .timers .final _ tmp => (6, tmp.length)
  | .syscall .final _ _ => (5, 0)
  | .wait .final _ _ _ => (4, 0)
  | .returned .final _ => (3, 0)
  | .complete .final _ => (2, s.kernel.cq.length)
  | .finished _ => (0, 0)
  | .thrown _ _ => (0, 0)

/-- The loop has less to do. -/
def Lower : Nat × Nat → Nat × Nat → Prop := Prod.Lex (· < ·) (· < ·)

/-- The loop can take a step of those that are left. -/
def LoopAdvances (config : Config) (s : State) : Prop :=
  ∃ label next, LoopStep config s label next ∧ Lower next.rank s.rank

/-- The loop waits in the kernel, has come to the end of an iteration, or has ended. -/
def LoopPc.paused : LoopPc → Bool
  | .wait _ _ _ _ => true
  | .enterReturned => true
  | .finished _ => true
  | .thrown _ _ => true
  | _ => false

end Definitions

section Invariants

variable {config : Config} {s next : State} {label : Label}

theorem Locking.keep (locking : Locking s) (mutex : next.shared.mutex = s.shared.mutex)
    (loop : next.loop.pc.locked = s.loop.pc.locked)
    (call : ∀ i, (next.call i).pc = .unlock ↔ (s.call i).pc = .unlock) : Locking next where
  loop := by
    rw [mutex, loop]
    exact locking.loop
  call i := by
    rw [mutex, call i]
    exact locking.call i

/-- The loop's own moves between two positions without `__mut_`. -/
theorem Locking.outside (locking : Locking s) (mutex : next.shared.mutex = s.shared.mutex)
    {before : LoopPc} (pc : s.loop.pc = before) (unlocked : before.locked = false)
    (after : next.loop.pc.locked = false) (call : ∀ i, (next.call i).pc = (s.call i).pc) :
    Locking next :=
  locking.keep mutex (by rw [pc, unlocked, after]) fun i => by rw [call i]

theorem AcceptStep.locking (step : AcceptStep config s label next) (locking : Locking s) :
    Locking next := by
  cases step with
  | take pc => exact locking.outside rfl pc rfl rfl fun _ => Call.take_pc _ _ _
  | load pc | retry pc | doneLoop pc | doneFinal pc =>
      exact locking.outside rfl pc rfl rfl fun _ => rfl

theorem CompleteStep.locking (step : CompleteStep s label next) (locking : Locking s) :
    Locking next := by
  cases step with
  | begin pc | handle _ pc | doneLoop pc | doneFinal pc =>
      exact locking.outside rfl pc rfl rfl fun _ => rfl

theorem SubmitStep.locking (step : SubmitStep config s label next) (locking : Locking s) :
    Locking next := by
  cases step with
  | stopLoad pc | begin pc | publish pc | stop _ pc | done pc =>
      exact locking.outside rfl pc rfl rfl fun _ => rfl

theorem TimerStep.locking (step : TimerStep config s label next) (locking : Locking s) :
    Locking next := by
  cases step with
  | manualStop _ pc | schedule pc | stop _ pc | doneLoop pc | doneFinal pc =>
      exact locking.outside rfl pc rfl rfl fun _ => rfl

theorem RunStep.locking (step : RunStep config s label next) (locking : Locking s) :
    Locking next := by
  cases step with
  | stay pc | exit pc | again pc | close pc | closed pc =>
      exact locking.outside rfl pc rfl rfl fun _ => rfl
  | closeRetry => exact locking

theorem Locking.free (locking : Locking s) (locked : s.loop.pc.locked = true) (i : Nat) :
    (s.call i).pc ≠ .unlock := by
  intro unlocking
  have mine := locking.loop.mpr locked
  cases mine.symm.trans ((locking.call i).mpr unlocking)

theorem EnterStep.locking (step : EnterStep config s label next) (locking : Locking s) :
    Locking next := by
  cases step with
  | lock pc free =>
      refine ⟨iff_of_true rfl rfl, fun i => iff_of_false nofun fun unlocking => ?_⟩
      cases free.symm.trans ((locking.call i).mpr unlocking)
  | skip pc | unlock pc =>
      have free := locking.free (by rw [pc]; rfl)
      exact ⟨iff_of_false nofun nofun, fun i => iff_of_false nofun (free i)⟩
  | sleep pc | notified pc | top pc =>
      exact locking.keep rfl (by rw [pc]; rfl) fun _ => Iff.rfl
  | consume pc | short _ pc | fail _ pc | ready pc | timeout _ pc | signal _ pc | store pc
  | throwLoop pc | timedOut pc | interrupted pc | consumed pc | throwFinal pc | complete pc =>
      exact locking.outside rfl pc rfl rfl fun _ => rfl

theorem Locking.move (locking : Locking s) (i : Nat) {changed : Call}
    (mutex : next.shared.mutex = s.shared.mutex) (loop : next.loop = s.loop)
    (call : next.call = Function.update s.call i changed)
    (before : (s.call i).pc ≠ .unlock) (after : changed.pc ≠ .unlock) : Locking next := by
  refine locking.keep mutex (by rw [loop]) fun j => ?_
  rw [call]
  by_cases mine : j = i
  · rw [mine, Function.update_self]
    exact iff_of_false after before
  · rw [Function.update_of_ne mine]

theorem CallStep.locking (step : CallStep config s label next) (locking : Locking s) :
    Locking next := by
  cases step with
  | beginSubmit i _ _ pc | beginStop i pc | beginNotify i pc | reserve i pc | reserveRetry i pc
  | rejectIo i _ pc | rejectTimer i _ pc | loadHead i _ pc | linkRetry i _ pc | link i _ pc
  | release i pc | setStop i pc | exchangeAsleep i pc | exchangeAwake i pc | write i pc =>
      exact locking.move i rfl rfl rfl (by rw [pc]; nofun) nofun
  | lock i pc free =>
      constructor
      · refine iff_of_false nofun fun locked => ?_
        cases free.symm.trans (locking.loop.mpr locked)
      · intro j
        change some (Owner.call i) = some (.call j) ↔ (Function.update s.call i _ j).pc = _
        by_cases mine : j = i
        · rw [mine, Function.update_self]
          exact iff_of_true rfl rfl
        · rw [Function.update_of_ne mine, ← locking.call j, free]
          exact iff_of_false (fun same => mine (by cases same; rfl)) nofun
  | unlock i pc =>
      have mine := (locking.call i).mpr pc
      constructor
      · refine iff_of_false nofun fun locked => ?_
        cases mine.symm.trans (locking.loop.mpr locked)
      · intro j
        refine iff_of_false nofun fun unlocking => ?_
        change (Function.update s.call i _ j).pc = _ at unlocking
        by_cases same : j = i
        · rw [same, Function.update_self] at unlocking
          cases unlocking
        · rw [Function.update_of_ne same] at unlocking
          cases mine.symm.trans ((locking.call j).mpr unlocking)
          exact same rfl

theorem KernelStep.locking (step : KernelStep config s label next) (locking : Locking s) :
    Locking next := by
  cases step with
  | postMore | postLast | tick => exact locking.keep rfl rfl fun _ => Iff.rfl

theorem Step.locking (step : Step config s label next) (locking : Locking s) : Locking next := by
  cases step with
  | accept step => exact step.locking locking
  | complete step => exact step.locking locking
  | submit step => exact step.locking locking
  | timer step => exact step.locking locking
  | enter step => exact step.locking locking
  | run step => exact step.locking locking
  | call step => exact step.locking locking
  | kernel step => exact step.locking locking

theorem reachable_locking (reachable : (system config).Reachable s) : Locking s := by
  refine reachable.invariant Locking ?_ ?_
  · rintro _ ⟨now, pending, rfl⟩
    exact ⟨iff_of_false nofun nofun, fun _ => iff_of_false nofun nofun⟩
  · intro _ _ _ _ locking step
    exact Step.locking step locking

theorem Fitting.move (fitting : Fitting s) (i : Nat) {changed : Call}
    (call : next.call = Function.update s.call i changed)
    (fits : changed.pc.submitting = true → ∃ queue op, changed.kind = .submit queue op) :
    Fitting next := by
  intro j submitting
  rw [call] at submitting ⊢
  by_cases mine : j = i
  · rw [mine, Function.update_self] at submitting ⊢
    exact fits submitting
  · rw [Function.update_of_ne mine] at submitting ⊢
    exact fitting j submitting

theorem CallStep.fitting (step : CallStep config s label next) (fitting : Fitting s) :
    Fitting next := by
  cases step with
  | beginSubmit i queue op => exact fitting.move i rfl fun _ => ⟨queue, op, rfl⟩
  | reserve i pc | reserveRetry i pc =>
      exact fitting.move i rfl fun _ => fitting i (by rw [pc]; rfl)
  | rejectIo i kind | rejectTimer i kind | loadHead i kind | linkRetry i kind =>
      exact fitting.move i rfl fun _ => ⟨_, _, kind⟩
  | beginStop i | beginNotify i | link i | release i | setStop i | exchangeAsleep i
  | exchangeAwake i | lock i | unlock i | write i => exact fitting.move i rfl nofun

theorem Fitting.congr (fitting : Fitting s) (kind : ∀ i, (next.call i).kind = (s.call i).kind)
    (pc : ∀ i, (next.call i).pc = (s.call i).pc) : Fitting next := by
  intro i submitting
  rw [pc] at submitting
  rw [kind]
  exact fitting i submitting

theorem AcceptStep.calls (step : AcceptStep config s label next) (i : Nat) :
    (next.call i).kind = (s.call i).kind ∧ (next.call i).pc = (s.call i).pc := by
  cases step with
  | take => exact ⟨Call.take_kind _ _ _, Call.take_pc _ _ _⟩
  | load | retry | doneLoop | doneFinal => exact ⟨rfl, rfl⟩

theorem RunStep.calls (step : RunStep config s label next) : next.call = s.call := by
  cases step with
  | stay | exit | again | close | closeRetry | closed => rfl

theorem Step.fitting (step : Step config s label next) (fitting : Fitting s) : Fitting next := by
  have same (call : next.call = s.call) : Fitting next :=
    fitting.congr (fun i => by rw [call]) fun i => by rw [call]
  cases step with
  | accept step => exact fitting.congr (fun i => (step.calls i).1) fun i => (step.calls i).2
  | complete step => exact same (@CompleteStep.remoteFrame config _ _ _ step).call
  | submit step => exact same step.remoteFrame.call
  | timer step => exact same step.remoteFrame.call
  | enter step => exact same step.remoteFrame.call
  | run step => exact same step.calls
  | call step => exact step.fitting fitting
  | kernel step => exact same step.remoteFrame.call

theorem reachable_fitting (reachable : (system config).Reachable s) : Fitting s := by
  refine reachable.invariant Fitting ?_ ?_
  · rintro _ ⟨now, pending, rfl⟩
    exact fun _ => nofun
  · intro _ _ _ _ fitting step
    exact Step.fitting step fitting

end Invariants

/-! ### The calls -/

section Calls

variable {config : Config} {s : State} {i : Nat}

theorem CallAdvances.of_step {shared : Shared} {log : Log} {changed : Call}
    (step : CallStep config s .tau
      { s with shared, log, call := Function.update s.call i changed })
    (fewer : changed.left shared < (s.call i).left s.shared) : CallAdvances config s i := by
  refine ⟨_, ⟨step, rfl, rfl, fun j apart => Function.update_of_ne apart _ _⟩, ?_⟩
  change (Function.update s.call i changed i).left shared < _
  rw [Function.update_self]
  exact fewer

theorem Call.left_of_pc {shared : Shared} {call : Call} {pc : CallPc} (here : call.pc = pc) :
    call.left shared = Call.left shared { call with pc } := by
  rw [← here]

theorem reserve_advances {n : Int} (fitting : Fitting s) (pc : (s.call i).pc = .reserve n) :
    CallAdvances config s i := by
  obtain ⟨queue, op, kind⟩ := fitting i (by rw [pc]; rfl)
  by_cases closed : n = noNewSubmit
  · rw [closed] at pc
    have before : (s.call i).left s.shared = 1 := by
      rw [Call.left_of_pc pc]
      rfl
    by_cases io : queue ∈ config.ioRemote
    · exact .of_step (.rejectIo i kind pc io) (by rw [before]; simp [Call.left])
    · exact .of_step (.rejectTimer i kind pc io) (by rw [before]; simp [Call.left])
  · by_cases current : s.shared.nSubmitInFlight = n
    · have before : (s.call i).left s.shared = 9 := by
        rw [Call.left_of_pc pc]
        simp [Call.left, closed, current]
      exact .of_step (.reserve i pc closed current) (by rw [before]; simp [Call.left])
    · have before : (s.call i).left s.shared = 10 := by
        rw [Call.left_of_pc pc]
        simp [Call.left, closed, Ne.symm current]
      refine .of_step (.reserveRetry i pc closed) ?_
      rw [before]
      simp only [Call.left, if_true]
      split
      · decide
      · decide

theorem link_advances {old : Option Addr} (fitting : Fitting s)
    (pc : (s.call i).pc = .link old) : CallAdvances config s i := by
  obtain ⟨queue, op, kind⟩ := fitting i (by rw [pc]; rfl)
  by_cases current : s.shared.head queue = old
  · have before : (s.call i).left s.shared = 6 := by
      simp [Call.left, pc, kind, current]
    exact .of_step (.link i kind pc current) (by rw [before]; simp [Call.left])
  · have before : (s.call i).left s.shared = 7 := by
      simp [Call.left, pc, kind, Ne.symm current]
    exact .of_step (.linkRetry i kind pc) (by rw [before]; simp [Call.left, kind])

/-- A call that has begun can go on, unless it waits for `__mut_`. -/
theorem call_advances (fitting : Fitting s) (active : (s.call i).pc.active = true) :
    CallAdvances config s i ∨ ((s.call i).pc = .lock ∧ s.shared.mutex ≠ none) := by
  cases pc : (s.call i).pc with
  | idle | returned | rejected =>
      rw [pc] at active
      cases active
  | reserve n => exact .inl (reserve_advances fitting pc)
  | loadHead =>
      obtain ⟨queue, op, kind⟩ := fitting i (by rw [pc]; rfl)
      refine .inl (.of_step (.loadHead i kind pc) ?_)
      simp [Call.left, pc, kind]
  | link old => exact .inl (link_advances fitting pc)
  | release => exact .inl (.of_step (.release i pc) (by simp [Call.left, pc]))
  | setStop => exact .inl (.of_step (.setStop i pc) (by simp [Call.left, pc]))
  | exchange =>
      by_cases asleep : s.shared.state = .sleep
      · exact .inl (.of_step (.exchangeAsleep i pc asleep) (by simp [Call.left, pc]))
      · exact .inl (.of_step (.exchangeAwake i pc asleep) (by simp [Call.left, pc]))
  | lock =>
      by_cases free : s.shared.mutex = none
      · exact .inl (.of_step (.lock i pc free) (by simp [Call.left, pc]))
      · exact .inr ⟨rfl, free⟩
  | unlock => exact .inl (.of_step (.unlock i pc) (by simp [Call.left, pc]))
  | write => exact .inl (.of_step (.write i pc) (by simp [Call.left, pc]))

end Calls

/-! ### The loop -/

section Loop

variable {config : Config} {s next : State} {label : Label}

theorem lower_iff {first second : Nat × Nat} : Lower first second ↔
    first.1 < second.1 ∨ first.1 = second.1 ∧ first.2 < second.2 := Prod.lex_def

theorem LoopAdvances.of_step (step : LoopStep config s label next)
    (lower : next.rank.1 < s.rank.1 ∨ next.rank.1 = s.rank.1 ∧ next.rank.2 < s.rank.2) :
    LoopAdvances config s :=
  ⟨label, next, step, lower_iff.mpr lower⟩

theorem accept_advances (remote : Remote config s) {site : Site} {queue : Nat} {todo : List Nat}
    {old : Option Addr} (pc : s.loop.pc = .reset site queue todo old) :
    LoopAdvances config s := by
  by_cases current : old = s.shared.head queue
  · obtain ⟨ops, chain, _⟩ := remote.queued.chains queue
    rw [← current] at chain
    obtain ⟨links, reversed, created, represents, _⟩ :=
      IntrusiveQueue.createReversed_spec ops.length (Nat.le_refl _) chain
    refine .of_step (.accept (.take pc current.symm created represents.1)) ?_
    cases site with
    | loop => simp [State.rank, pc, current]
    | final => simp [State.rank, pc, current]
  · refine .of_step (.accept (.retry pc)) ?_
    cases site with
    | loop => simp [State.rank, pc, current]
    | final => simp [State.rank, pc, current]

theorem complete_advances {site : Site} {n : Nat} (pc : s.loop.pc = .complete site n) :
    LoopAdvances config s := by
  cases posted : s.kernel.cq with
  | nil =>
      cases site with
      | loop => exact .of_step (.complete (.doneLoop pc posted)) (by simp [State.rank, pc])
      | final => exact .of_step (.complete (.doneFinal pc posted)) (by simp [State.rank, pc])
  | cons cqe rest =>
      refine .of_step (.complete (.handle [] pc posted)) ?_
      cases site with
      | loop => simp [State.rank, pc, posted]
      | final => simp [State.rank, pc, posted]

theorem submit_advances {site : Site} {stop cur : Bool} {max r : Nat}
    (pc : s.loop.pc = .submit site stop cur max r) : LoopAdvances config s := by
  by_cases finished : s.loop.ioPending = [] ∨ max ≤ r
  · refine .of_step (.submit (.done pc finished)) ?_
    cases site with
    | loop => simp [State.rank, pc]
    | final => simp [State.rank, pc]
  · obtain ⟨some, room⟩ := not_or.mp finished
    obtain ⟨op, rest, pending⟩ := List.exists_cons_of_ne_nil some
    have below : r < max := Nat.not_le.mp room
    cases goes : (cur && !config.isCancel op) with
    | false =>
        refine .of_step (.submit (.publish pc pending below goes)) ?_
        cases site with
        | loop => simp [State.rank, pc, pending]
        | final => simp [State.rank, pc, pending]
    | true =>
        refine .of_step (.submit (.stop [] pc pending below goes)) ?_
        cases site with
        | loop => simp [State.rank, pc, pending, pushLocal]
        | final => simp [State.rank, pc, pending, pushLocal]

theorem timers_advances {site : Site} {stop : Bool} {tmp : List Addr}
    (pc : s.loop.pc = .timers site stop tmp) : LoopAdvances config s := by
  cases tmp with
  | nil =>
      cases site with
      | loop => exact .of_step (.timer (.doneLoop pc)) (by simp [State.rank, pc])
      | final => exact .of_step (.timer (.doneFinal pc)) (by simp [State.rank, pc])
  | cons op rest =>
      have shorter {after : State} (here : ∃ stop, after.loop.pc = .timers site stop rest) :
          after.rank.1 = s.rank.1 ∧ after.rank.2 < s.rank.2 := by
        obtain ⟨stop, here⟩ := here
        cases site with
        | loop => simp [State.rank, pc, here]
        | final => simp [State.rank, pc, here]
      cases stop with
      | true => exact .of_step (.timer (.manualStop [] pc)) (.inr (shorter ⟨_, rfl⟩))
      | false =>
          cases command : config.timer op with
          | schedule key =>
              exact .of_step (.timer (.schedule pc command)) (.inr (shorter ⟨_, rfl⟩))
          | stop target =>
              exact .of_step (.timer (.stop [] pc command)) (.inr (shorter ⟨_, rfl⟩))

theorem syscall_advances {site : Site} {minComplete : Nat} {timeout : Option Timespec}
    (pc : s.loop.pc = .syscall site minComplete timeout) : LoopAdvances config s := by
  by_cases published : toSubmit s.loop ≤ s.kernel.sq.length
  · refine .of_step (.enter (.consume pc published)) ?_
    cases site with
    | loop => simp [State.rank, pc]
    | final => simp [State.rank, pc]
  · have fewer : s.kernel.sq.length < toSubmit s.loop := Nat.not_le.mp published
    refine .of_step (.enter (.short s.kernel.sq.length pc fewer (Nat.le_refl _))) ?_
    cases site with
    | loop => simp [State.rank, pc]
    | final => simp [State.rank, pc]

theorem update_advances {rc : Int} (pc : s.loop.pc = .update rc) : LoopAdvances config s := by
  by_cases fatal : Fatal rc
  · exact .of_step (.enter (.throwLoop pc fatal)) (by simp [State.rank, pc])
  · by_cases time : rc = -ETIME
    · exact .of_step (.enter (.timedOut pc time)) (by simp [State.rank, pc])
    · by_cases signal : rc = -EINTR
      · exact .of_step (.enter (.interrupted pc signal)) (by simp [State.rank, pc])
      · have count : 0 ≤ rc := by
          by_contra negative
          exact fatal ⟨Int.not_le.mp negative, signal, time⟩
        exact .of_step (.enter (.consumed pc count)) (by simp [State.rank, pc])

/-- A counter that is neither closed nor zero counts a call. -/
theorem exists_inside (remote : Remote config s)
    (stillOpen : s.shared.nSubmitInFlight ≠ noNewSubmit) (used : s.shared.nSubmitInFlight ≠ 0) :
    ∃ i, (s.call i).pc.inside = true := by
  obtain ⟨inside, _, members, counter⟩ := remote.counted
  rcases counter with counts | ⟨closed, _⟩
  · cases inside with
    | nil => exact absurd counts used
    | cons i rest => exact ⟨i, (members i).mp List.mem_cons_self⟩
  · exact absurd closed stillOpen

/-- A call stands in the way of the loop. -/
def LoopWaits (s : State) (i : Nat) : Prop :=
  (s.loop.pc = .lock ∧ s.shared.mutex = some (.call i)) ∨
    (s.loop.pc = .close ∧ (s.call i).pc.inside = true)

/-- The loop can go on, unless it is paused or a call stands in its way. -/
theorem loop_advances (remote : Remote config s) (locking : Locking s) :
    s.loop.pc.paused = true ∨ LoopAdvances config s ∨ ∃ i, LoopWaits s i := by
  have go (advances : LoopAdvances config s) :
      LoopAdvances config s ∨ ∃ i, LoopWaits s i := .inl advances
  cases pc : s.loop.pc with
  | wait | enterReturned | finished | thrown => exact .inl rfl
  | accept site todo =>
      refine .inr (go ?_)
      cases todo with
      | cons queue todo =>
          refine .of_step (.accept (.load pc)) ?_
          cases site with
          | loop => simp [State.rank, pc]; omega
          | final => simp [State.rank, pc]; omega
      | nil =>
          cases site with
          | loop => exact .of_step (.accept (.doneLoop pc)) (by simp [State.rank, pc])
          | final => exact .of_step (.accept (.doneFinal pc)) (by simp [State.rank, pc])
  | reset => exact .inr (go (accept_advances remote pc))
  | loopHead => exact .inr (go (.of_step (.complete (.begin pc)) (by simp [State.rank, pc])))
  | complete => exact .inr (go (complete_advances pc))
  | stopLoad => exact .inr (go (.of_step (.submit (.stopLoad pc)) (by simp [State.rank, pc])))
  | submitBegin site =>
      refine .inr (go (.of_step (.submit (.begin pc)) ?_))
      cases site with
      | loop => simp [State.rank, pc]
      | final => simp [State.rank, pc]
  | submit => exact .inr (go (submit_advances pc))
  | timers => exact .inr (go (timers_advances pc))
  | exitTest =>
      refine .inr (go ?_)
      by_cases leave : exitCondition s.shared s.loop
      · exact .of_step (.run (.exit pc leave)) (by simp [State.rank, pc])
      · exact .of_step (.run (.stay pc leave)) (by simp [State.rank, pc])
  | lock =>
      refine .inr ?_
      cases mutex : s.shared.mutex with
      | none => exact go (.of_step (.enter (.lock pc mutex)) (by simp [State.rank, pc]))
      | some owner =>
          cases owner with
          | loop =>
              have locked := locking.loop.mp mutex
              rw [pc] at locked
              cases locked
          | call i => exact .inr ⟨i, .inl ⟨pc, mutex⟩⟩
  | compareExchange =>
      refine .inr (go ?_)
      by_cases running : s.shared.state = .run
      · exact .of_step (.enter (.sleep pc running)) (by simp [State.rank, pc])
      · exact .of_step (.enter (.notified pc running)) (by simp [State.rank, pc])
  | top => exact .inr (go (.of_step (.enter (.top pc)) (by simp [State.rank, pc])))
  | unlock => exact .inr (go (.of_step (.enter (.unlock pc)) (by simp [State.rank, pc])))
  | syscall => exact .inr (go (syscall_advances pc))
  | returned site rc =>
      refine .inr (go ?_)
      cases site with
      | loop => exact .of_step (.enter (.store pc)) (by simp [State.rank, pc])
      | final =>
          by_cases fatal : Fatal rc
          · exact .of_step (.enter (.throwFinal pc fatal)) (by simp [State.rank, pc])
          · exact .of_step (.enter (.complete pc fatal)) (by simp [State.rank, pc])
  | update => exact .inr (go (update_advances pc))
  | skip => exact .inr (go (.of_step (.enter (.skip pc)) (by simp [State.rank, pc])))
  | close =>
      refine .inr ?_
      by_cases closed : s.shared.nSubmitInFlight = noNewSubmit
      · exact go (.of_step (.run (.closed pc closed)) (by simp [State.rank, pc]))
      · by_cases unused : s.shared.nSubmitInFlight = 0
        · exact go (.of_step (.run (.close pc unused)) (by simp [State.rank, pc]))
        · obtain ⟨i, inside⟩ := exists_inside remote closed unused
          exact .inr ⟨i, .inr ⟨pc, inside⟩⟩

theorem CallPc.active_of_inside {pc : CallPc} (inside : pc.inside = true) :
    pc.active = true ∧ pc ≠ .lock := by
  cases pc with
  | loadHead | link | release => exact ⟨rfl, nofun⟩
  | _ => cases inside

theorem LoopPc.not_paused {pc : LoopPc} (locked : pc.locked = true) : pc.paused = false := by
  cases pc with
  | compareExchange | top | unlock | skip => rfl
  | _ => cases locked

/-- A call that stands in the way of the loop can go on. -/
theorem LoopWaits.advances {i : Nat} (waits : LoopWaits s i) (fitting : Fitting s)
    (locking : Locking s) : CallAdvances config s i := by
  have here : (s.call i).pc = .unlock ∨ (s.call i).pc.inside = true := by
    rcases waits with ⟨_, mutex⟩ | ⟨_, inside⟩
    · exact .inl ((locking.call i).mp mutex)
    · exact .inr inside
  have active : (s.call i).pc.active = true ∧ (s.call i).pc ≠ .lock := by
    rcases here with unlocking | inside
    · rw [unlocking]
      exact ⟨rfl, nofun⟩
    · exact CallPc.active_of_inside inside
  rcases call_advances fitting active.1 with advances | ⟨lock, _⟩
  · exact advances
  · exact absurd lock active.2

theorem locked_advances (remote : Remote config s) (locking : Locking s)
    (locked : s.loop.pc.locked = true) : LoopAdvances config s := by
  rcases loop_advances remote locking with paused | advances | ⟨i, ⟨pc, _⟩ | ⟨pc, _⟩⟩
  · cases paused.symm.trans (LoopPc.not_paused locked)
  · exact advances
  · rw [pc] at locked
    cases locked
  · rw [pc] at locked
    cases locked

end Loop

/-! ### Nobody waits for somebody who waits -/

section Live

variable {config : Config} {s : State}

/-- No call is where the loop could have to wait for it. -/
def Clear (s : State) : Prop :=
  ∀ i, (s.call i).pc.inside = false ∧ (s.call i).pc ≠ .unlock

/-- What everybody can rely on. `exclusive` is what `__mut_` is for. Alone, the loop gets to
its wait, the end of its iteration or its end, and a call to its return. -/
structure Live (config : Config) (s : State) : Prop where
  exclusive : ∀ i, (s.call i).pc = .unlock →
    s.loop.pc.locked = false ∧ ∀ j, (s.call j).pc = .unlock → j = i
  call : ∀ i, (s.call i).pc.active = true → CallAdvances config s i ∨
    (s.loop.pc.locked = true ∧ LoopAdvances config s) ∨
    ∃ j, (s.call j).pc = .unlock ∧ CallAdvances config s j
  loop : s.loop.pc.paused = true ∨ LoopAdvances config s ∨
    ∃ i, LoopWaits s i ∧ CallAdvances config s i
  pauses : Clear s → ∃ next,
    Relation.ReflTransGen (fun before after => ∃ label, LoopStep config before label after)
      s next ∧ next.loop.pc.paused = true
  returns : ∀ i, s.loop.pc.locked = false → (∀ j, j ≠ i → (s.call j).pc ≠ .unlock) →
    ∃ next, Relation.ReflTransGen (OwnStep config i) s next ∧
      (next.call i).pc.active = false

theorem LoopStep.step {label : Label} {next : State} (step : LoopStep config s label next) :
    Step config s label next := by
  cases step with
  | accept step => exact .accept step
  | complete step => exact .complete step
  | submit step => exact .submit step
  | timer step => exact .timer step
  | enter step => exact .enter step
  | run step => exact .run step

theorem LoopStep.pc {label : Label} {next : State} (step : LoopStep config s label next)
    (i : Nat) : (next.call i).pc = (s.call i).pc := by
  have same (call : next.call = s.call) : (next.call i).pc = (s.call i).pc := by rw [call]
  cases step with
  | accept step => exact (step.calls i).2
  | complete step => exact same (@CompleteStep.remoteFrame config _ _ _ step).call
  | submit step => exact same step.remoteFrame.call
  | timer step => exact same step.remoteFrame.call
  | enter step => exact same step.remoteFrame.call
  | run step => exact same step.calls

/-- With no call in its way the loop gets to a pause by itself. -/
theorem loop_pauses (reachable : (system config).Reachable s) (clear : Clear s) : ∃ next,
    Relation.ReflTransGen (fun before after => ∃ label, LoopStep config before label after)
      s next ∧ next.loop.pc.paused = true := by
  have lower : WellFounded Lower := WellFounded.prod_lex Nat.lt_wfRel.wf Nat.lt_wfRel.wf
  have atStep (s : State) (holds : (system config).Reachable s ∧ Clear s)
      (running : ¬ s.loop.pc.paused = true) :
      ∃ next, (∃ label, LoopStep config s label next) ∧
        ((system config).Reachable next ∧ Clear next) ∧ Lower next.rank s.rank := by
    obtain ⟨reachable, clear⟩ := holds
    rcases loop_advances (reachable_remote reachable) (reachable_locking reachable) with
      paused | ⟨label, next, step, fewer⟩ | ⟨i, ⟨_, mutex⟩ | ⟨_, inside⟩⟩
    · exact absurd paused running
    · refine ⟨next, ⟨label, step⟩, ⟨reachable.step step.step, fun i => ?_⟩, fewer⟩
      rw [step.pc i]
      exact clear i
    · exact absurd (((reachable_locking reachable).call i).mp mutex) (clear i).2
    · exact absurd inside (by rw [(clear i).1]; nofun)
  obtain ⟨next, run, _, paused⟩ :=
    System.exists_descent lower State.rank atStep ⟨reachable, clear⟩
  exact ⟨next, run, paused⟩

/-- With nobody else between locking and unlocking, a call returns by itself. -/
theorem call_returns (reachable : (system config).Reachable s) (i : Nat)
    (loop : s.loop.pc.locked = false) (others : ∀ j, j ≠ i → (s.call j).pc ≠ .unlock) :
    ∃ next, Relation.ReflTransGen (OwnStep config i) s next ∧
      (next.call i).pc.active = false := by
  let Holds (s : State) : Prop := (system config).Reachable s ∧ s.loop.pc.locked = false ∧
    ∀ j, j ≠ i → (s.call j).pc ≠ .unlock
  have atStep (s : State) (holds : Holds s) (running : ¬ (s.call i).pc.active = false) :
      ∃ next, OwnStep config i s next ∧ Holds next ∧
        (next.call i).left next.shared < (s.call i).left s.shared := by
    obtain ⟨reachable, loop, others⟩ := holds
    have active : (s.call i).pc.active = true := Bool.not_eq_false _ ▸ running
    have locking := reachable_locking reachable
    rcases call_advances (reachable_fitting reachable) active with
      ⟨next, own, fewer⟩ | ⟨lock, mutex⟩
    · refine ⟨next, own, ⟨reachable.step (.call own.1), ?_, fun j apart => ?_⟩, fewer⟩
      · rw [own.2.1]
        exact loop
      · rw [own.2.2.2 j apart]
        exact others j apart
    · obtain ⟨owner, held⟩ := Option.ne_none_iff_exists'.mp mutex
      cases owner with
      | loop =>
          have locked := locking.loop.mp held
          rw [loop] at locked
          cases locked
      | call j =>
          have unlocking := (locking.call j).mp held
          by_cases mine : j = i
          · rw [mine, lock] at unlocking
            cases unlocking
          · exact absurd unlocking (others j mine)
  obtain ⟨next, run, _, returned⟩ := System.exists_descent Nat.lt_wfRel.wf
    (fun s : State => (s.call i).left s.shared) atStep ⟨reachable, loop, others⟩
  exact ⟨next, run, returned⟩

/-- Nobody is ever stuck. -/
theorem never_deadlocked (reachable : (system config).Reachable s) : Live config s := by
  have locking := reachable_locking reachable
  have fitting := reachable_fitting reachable
  have remote := reachable_remote reachable
  have holder (j : Nat) (unlocking : (s.call j).pc = .unlock) : CallAdvances config s j := by
    rcases call_advances fitting (by rw [unlocking]; rfl) with advances | ⟨lock, _⟩
    · exact advances
    · cases unlocking.symm.trans lock
  refine ⟨fun i unlocking => ⟨?_, fun j also => ?_⟩, fun i active => ?_, ?_,
    loop_pauses reachable, call_returns reachable⟩
  · by_contra locked
    exact locking.free (Bool.not_eq_false _ ▸ locked) i unlocking
  · have first := (locking.call i).mpr unlocking
    cases first.symm.trans ((locking.call j).mpr also)
    rfl
  · rcases call_advances fitting active with advances | ⟨_, mutex⟩
    · exact .inl advances
    · obtain ⟨owner, held⟩ := Option.ne_none_iff_exists'.mp mutex
      cases owner with
      | loop =>
          have locked := locking.loop.mp held
          exact .inr (.inl ⟨locked, locked_advances remote locking locked⟩)
      | call j =>
          have unlocking := (locking.call j).mp held
          exact .inr (.inr ⟨j, unlocking, holder j unlocking⟩)
  · rcases loop_advances remote locking with paused | advances | ⟨i, waits⟩
    · exact .inl paused
    · exact .inr (.inl advances)
    · exact .inr (.inr ⟨i, waits, waits.advances fitting locking⟩)

/-- A notification has found the loop asleep. -/
theorem never_deadlocked_notified : ∃ s, (system small).Reachable s ∧
    (s.call 0).pc = .lock ∧ Live small s := by
  have begun := blocked_reachable.step (.call (.beginNotify 0 rfl))
  have exchanged := begun.step (.call (.exchangeAsleep 0 rfl rfl))
  exact ⟨_, exchanged, rfl, never_deadlocked exchanged⟩

end Live

end NgrCore.Scheduler
