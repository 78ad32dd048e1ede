import NgrCore.Scheduler.Accounting

/-!
Owns the hand-over between `_M_notify` and `_M_io_uring_enter`.

Proves that the loop never blocks with nothing outstanding, and that the loop
enters the kernel in every iteration as long as each compare-exchange finds
`_S_run`. A run in which one does not shows that `_S_notify` is never taken back.
-/

namespace NgrCore.Scheduler

open NgrCore.Library

/-! ### Blocking -/

/-- The thread is in a wait of `io_uring_enter` that its ring does not end. -/
def Blocked (s : State) : Prop :=
  ∃ site minComplete submitted deadline,
    s.loop.pc = .wait site minComplete submitted deadline ∧
      s.kernel.cq.length < minComplete

/-- The call is inside `_M_notify`. -/
def CallPc.notifying : CallPc → Bool
  | .exchange => true
  | .lock => true
  | .unlock => true
  | .write => true
  | _ => false

/-- A wake-up is lost: there is something to do and nobody left to tell the
scheduler, which sleeps with nothing outstanding. -/
structure LostWakeup (config : Config) (s : State) : Prop where
  asleep : Blocked s
  reason : (∃ queue ∈ config.remote, s.shared.head queue ≠ none) ∨
    s.shared.stopRequested = true
  notified : ∀ i, (s.call i).pc.notifying = false
  noOperation : s.kernel.sq = [] ∧ s.kernel.inflight = []
  noTimer : s.loop.heap = []

/-- What the exit test leaves to a wait: operations are in flight, and the
final wait asks for one CQE for each of them. -/
def Loop.WaitsForSome (loop : Loop) : Prop :=
  match loop.pc with
  | .lock => loop.nTotalSubmit ≠ 0
  | .compareExchange => loop.nTotalSubmit ≠ 0
  | .top => loop.nTotalSubmit ≠ 0
  | .unlock _ => loop.nTotalSubmit ≠ 0
  | .syscall .loop minComplete _ => loop.nTotalSubmit ≠ 0 ∧ minComplete = 1
  | .wait .loop minComplete _ _ => loop.nTotalSubmit ≠ 0 ∧ minComplete = 1
  | .syscall .final minComplete _ => (minComplete : Int) = loop.nTotalSubmit
  | .wait .final minComplete _ _ => (minComplete : Int) = loop.nTotalSubmit
  | _ => True

section Blocking

variable {config : Config} {s next : State} {label : Label}

theorem TimerStep.waitsForSome (step : TimerStep config s label next)
    (accounted : Accounted config s.loop s.kernel) : next.loop.WaitsForSome := by
  cases step with
  | doneFinal pc =>
      rcases Accounting.exact (accounted.at pc) with ⟨_, _, positive, within⟩
      have entries := config.cqEntries_lt
      exact toUnsigned_toNat positive (by omega)
  | _ => trivial

theorem EnterStep.waitsForSome (step : EnterStep config s label next)
    (waits : s.loop.WaitsForSome) : next.loop.WaitsForSome := by
  unfold Loop.WaitsForSome at waits
  cases step with
  | lock pc =>
      rw [pc] at waits
      exact waits
  | sleep pc =>
      rw [pc] at waits
      exact waits
  | top pc =>
      rw [pc] at waits
      exact waits
  | unlock pc =>
      rw [pc] at waits
      exact ⟨waits, rfl⟩
  | consume pc =>
      rename_i site minComplete timeout published
      rw [pc] at waits
      cases site with
      | loop => exact waits
      | final => exact waits
  | _ => trivial

theorem RunStep.waitsForSome (step : RunStep config s label next)
    (waits : s.loop.WaitsForSome) : next.loop.WaitsForSome := by
  cases step with
  | stay pc more => exact fun zero => more (.inl zero)
  | closeRetry => exact waits
  | _ => trivial

theorem Step.waitsForSome (step : Step config s label next)
    (accounted : Accounted config s.loop s.kernel) (waits : s.loop.WaitsForSome) :
    next.loop.WaitsForSome := by
  cases step with
  | accept step => cases step <;> trivial
  | complete step => cases step <;> trivial
  | submit step => cases step <;> trivial
  | timer step => exact step.waitsForSome accounted
  | enter step => exact step.waitsForSome waits
  | run step => exact step.waitsForSome waits
  | call step =>
      rw [step.frame.1]
      exact waits
  | kernel step => cases step <;> exact waits

theorem reachable_waitsForSome (reachable : (system config).Reachable s) :
    s.loop.WaitsForSome := by
  apply reachable.invariant fun s => s.loop.WaitsForSome
  · intro state start
    rcases start with ⟨now, pending, rfl⟩
    trivial
  · intro state label next earlier waits step
    exact Step.waitsForSome step (reachable_accounted earlier) waits

/-- A blocked scheduler waits for an operation that the kernel holds. -/
theorem Blocked.inflight (blocked : Blocked s) (reachable : (system config).Reachable s) :
    s.kernel.inflight ≠ [] := by
  rcases blocked with ⟨site, minComplete, submitted, deadline, pc, few⟩
  have waits := reachable_waitsForSome reachable
  have accounted := (reachable_accounted reachable).at pc
  have total : s.loop.nTotalSubmit = outstanding s.kernel := by
    have sum := accounted.sum
    simp only [LoopPc.ledger] at sum
    omega
  have emptied : s.kernel.sq = [] := accounted.empty rfl
  have posted := terminals_le_length s.kernel.cq
  intro nothing
  have count : outstanding s.kernel = terminals s.kernel.cq := by
    unfold outstanding
    rw [emptied, nothing]
    simp
  unfold Loop.WaitsForSome at waits
  rw [pc] at waits
  cases site with
  | loop =>
      have nonzero := waits.1
      have one := waits.2
      omega
  | final =>
      have all : (minComplete : Int) = s.loop.nTotalSubmit := waits
      omega

/-- No run loses a wake-up. -/
theorem no_lost_wakeup (config : Config) (s : State)
    (reachable : (system config).Reachable s) : ¬ LostWakeup config s := by
  intro lost
  exact lost.asleep.inflight reachable lost.noOperation.2

/-- A remote operation arrives at the blocked small scheduler and its notifier
is done: the eventfd does not end the wait, operation 7 does. -/
theorem no_lost_wakeup_remote :
    ∃ s, Blocked s ∧ s.shared.head 0 = some 5 ∧ s.shared.eventfd = 1 ∧
      (s.call 0).pc = .returned ∧ ¬ LostWakeup small s := by
  have begun := blocked_reachable.step (.call (.beginSubmit 0 0 5 rfl (by decide) nofun))
  have reserved := begun.step (.call (.reserve 0 rfl (by decide) rfl))
  have loaded := reserved.step (.call (.loadHead 0 rfl rfl))
  have linked := loaded.step (.call (.link 0 rfl rfl rfl))
  have released := linked.step (.call (.release 0 rfl))
  have exchanged := released.step (.call (.exchangeAsleep 0 rfl rfl))
  have locked := exchanged.step (.call (.lock 0 rfl rfl))
  have unlocked := locked.step (.call (.unlock 0 rfl))
  have written := unlocked.step (.call (.write 0 rfl))
  exact ⟨_, ⟨.loop, 1, 1, none, rfl, by decide⟩, rfl, rfl, rfl,
    no_lost_wakeup small _ written⟩

end Blocking

/-! ### Entering the kernel -/

/-- What one notification may do to the loop. `exchangesAtCas` and
`exchangesBefore` count the exchanges up to the compare-exchange of the current
call and up to the one before. -/
structure WakesOnce (s : State) : Prop where
  skipped : s.log.skips ≤ s.log.exchanges
  awake : s.loop.pc = .enterReturned →
    s.shared.state = .run ∨ s.log.exchangesAtCas < s.log.exchanges
  enters : s.loop.pc = .enterReturned → s.log.exchangesAtCas = s.log.exchangesBefore →
    s.log.entered = some (toUnsigned s.log.newlyAtCas).toNat

/-- The compare-exchange finds `_S_run`: no notification landed since the loop
stored it last. -/
def FindsRun (s : State) (label : Label) : Prop :=
  label = .compareExchange → s.shared.state = .run

/-- The runs in which every compare-exchange succeeds. -/
def undisturbed (config : Config) : System State Label := (system config).restrict FindsRun

/-- How far the current `_M_io_uring_enter` got. -/
inductive Phase
  | outside
  | asleep
  | entered
  | returning
  | skipping

def LoopPc.phase : LoopPc → Phase
  | .top => .asleep
  | .unlock _ => .asleep
  | .syscall .loop _ _ => .asleep
  | .wait .loop _ _ _ => .entered
  | .returned .loop _ => .entered
  | .update _ => .returning
  | .enterReturned => .returning
  | .skip => .skipping
  | _ => .outside

/-- The kernel was entered with the entries pending at the
compare-exchange. -/
def Log.Entered (log : Log) : Prop := log.entered = some (toUnsigned log.newlyAtCas).toNat

/-- The notifications that the loop has not answered came after its
compare-exchange. -/
def State.Awake (s : State) : Prop :=
  s.shared.state = .run ∨ s.log.exchangesAtCas < s.log.exchanges

/-- The invariant of the undisturbed runs, by phase. -/
structure Undisturbed (s : State) : Prop where
  ordered : s.log.exchangesAtCas ≤ s.log.exchanges
  noSkip : s.log.skips = 0
  asleep : s.loop.pc.phase = .asleep → s.log.newlyAtCas = s.loop.nNewlySubmit
  entered : s.loop.pc.phase = .entered → s.log.Entered
  returning : s.loop.pc.phase = .returning → s.log.Entered ∧ s.Awake
  notSkipping : s.loop.pc.phase ≠ .skipping

section Entering

variable {config : Config} {s next : State} {label : Label}

/-- A step that leaves the log of the hand-over alone and ends outside
`_M_io_uring_enter`. -/
theorem Undisturbed.outside (undisturbed : Undisturbed s)
    (exchanges : next.log.exchanges = s.log.exchanges)
    (atCas : next.log.exchangesAtCas = s.log.exchangesAtCas)
    (skips : next.log.skips = s.log.skips) (phase : next.loop.pc.phase = .outside) :
    Undisturbed next := by
  constructor
  · rw [exchanges, atCas]
    exact undisturbed.ordered
  · rw [skips]
    exact undisturbed.noSkip
  all_goals rw [phase]; nofun

/-- A step of the loop that is not a compare-exchange, a store or an entry
moves on inside a phase. -/
theorem Undisturbed.move (undisturbed : Undisturbed s) (log : next.log = s.log)
    (newly : next.loop.pc.phase = .asleep → next.loop.nNewlySubmit = s.loop.nNewlySubmit)
    (state : next.shared.state = s.shared.state)
    (phase : next.loop.pc.phase = s.loop.pc.phase) : Undisturbed next := by
  constructor
  · rw [log]
    exact undisturbed.ordered
  · rw [log]
    exact undisturbed.noSkip
  · intro asleep
    rw [log, newly asleep]
    exact undisturbed.asleep (phase ▸ asleep)
  · intro entered
    rw [log]
    exact undisturbed.entered (phase ▸ entered)
  · intro returning
    unfold State.Awake
    rw [log, state]
    exact undisturbed.returning (phase ▸ returning)
  · rw [phase]
    exact undisturbed.notSkipping

/-- The system call is made with what was pending at the compare-exchange. -/
theorem Undisturbed.enter (undisturbed : Undisturbed s) (asleep : s.loop.pc.phase = .asleep)
    (log : next.log = { s.log with entered := some (toSubmit s.loop) })
    (phase : next.loop.pc.phase = .entered) : Undisturbed next := by
  have pending := undisturbed.asleep asleep
  constructor
  · rw [log]
    exact undisturbed.ordered
  · rw [log]
    exact undisturbed.noSkip
  · rw [phase]
    nofun
  · intro _
    rw [log]
    show some (toSubmit s.loop) = some (toUnsigned s.log.newlyAtCas).toNat
    rw [pending]
    rfl
  · rw [phase]
    nofun
  · rw [phase]
    nofun

theorem EnterStep.undisturbed (step : EnterStep config s label next)
    (undisturbed : Undisturbed s) (finds : FindsRun s label) : Undisturbed next := by
  cases step with
  | lock pc => exact undisturbed.outside rfl rfl rfl rfl
  | sleep pc running =>
      exact ⟨le_refl _, undisturbed.noSkip, fun _ => rfl, nofun, nofun, nofun⟩
  | notified pc other => exact absurd (finds rfl) other
  | skip pc => exact absurd (congrArg LoopPc.phase pc) undisturbed.notSkipping
  | top pc => exact undisturbed.move rfl (fun _ => rfl) rfl (by rw [pc]; rfl)
  | unlock pc => exact undisturbed.move rfl (fun _ => rfl) rfl (by rw [pc]; rfl)
  | consume pc =>
      rename_i site minComplete timeout published
      cases site with
      | final => exact undisturbed.outside rfl rfl rfl rfl
      | loop => exact undisturbed.enter (by rw [pc]; rfl) rfl rfl
  | short count pc =>
      rename_i site minComplete timeout fewer published
      cases site with
      | final => exact undisturbed.outside rfl rfl rfl rfl
      | loop => exact undisturbed.enter (by rw [pc]; rfl) rfl rfl
  | fail rc pc =>
      rename_i site minComplete timeout fatal
      cases site with
      | final => exact undisturbed.outside rfl rfl rfl rfl
      | loop => exact undisturbed.enter (by rw [pc]; rfl) rfl rfl
  | ready pc =>
      rename_i site minComplete submitted deadline posted
      cases site with
      | final => exact undisturbed.outside rfl rfl rfl rfl
      | loop => exact undisturbed.move rfl nofun rfl (by rw [pc]; rfl)
  | timeout rc pc =>
      rename_i site minComplete submitted deadline expired result
      cases site with
      | final => exact undisturbed.outside rfl rfl rfl rfl
      | loop => exact undisturbed.move rfl nofun rfl (by rw [pc]; rfl)
  | signal rc pc =>
      rename_i site minComplete submitted deadline result
      cases site with
      | final => exact undisturbed.outside rfl rfl rfl rfl
      | loop => exact undisturbed.move rfl nofun rfl (by rw [pc]; rfl)
  | store pc =>
      have passed : s.log.Entered := undisturbed.entered (by rw [pc]; rfl)
      exact ⟨undisturbed.ordered, undisturbed.noSkip, nofun, nofun,
        fun _ => ⟨passed, .inl rfl⟩, nofun⟩
  | throwLoop pc => exact undisturbed.outside rfl rfl rfl rfl
  | timedOut pc => exact undisturbed.move rfl nofun rfl (by rw [pc]; rfl)
  | interrupted pc => exact undisturbed.move rfl nofun rfl (by rw [pc]; rfl)
  | consumed pc => exact undisturbed.move rfl nofun rfl (by rw [pc]; rfl)
  | throwFinal pc => exact undisturbed.outside rfl rfl rfl rfl
  | complete pc => exact undisturbed.outside rfl rfl rfl rfl

theorem RunStep.undisturbed (step : RunStep config s label next)
    (undisturbed : Undisturbed s) : Undisturbed next := by
  cases step with
  | closeRetry => exact undisturbed
  | _ => exact undisturbed.outside rfl rfl rfl rfl

/-- An exchange is the only step of a call that writes `__state_`, and it is
counted. -/
theorem CallStep.exchanges (step : CallStep config s label next) :
    (next.shared.state = s.shared.state ∧ next.log.exchanges = s.log.exchanges) ∨
      next.log.exchanges = s.log.exchanges + 1 := by
  cases step with
  | exchangeAsleep => exact .inr rfl
  | exchangeAwake => exact .inr rfl
  | _ => exact .inl ⟨rfl, rfl⟩

theorem CallStep.wakeFrame (step : CallStep config s label next) :
    next.log.exchangesAtCas = s.log.exchangesAtCas ∧ next.log.skips = s.log.skips ∧
      next.log.newlyAtCas = s.log.newlyAtCas ∧ next.log.entered = s.log.entered := by
  cases step <;> exact ⟨rfl, rfl, rfl, rfl⟩

theorem CallStep.undisturbed (step : CallStep config s label next)
    (undisturbed : Undisturbed s) : Undisturbed next := by
  rcases step.wakeFrame with ⟨atCas, skips, newly, entered⟩
  have loop := step.frame.1
  have kept : s.log.Entered → next.log.Entered := by
    unfold Log.Entered
    rw [newly, entered]
    exact id
  have awake : s.Awake → next.Awake := by
    unfold State.Awake
    rw [atCas]
    rcases step.exchanges with ⟨state, same⟩ | more
    · rw [state, same]
      exact id
    · intro _
      have ordered := undisturbed.ordered
      right
      omega
  constructor
  · rw [atCas]
    have ordered := undisturbed.ordered
    rcases step.exchanges with ⟨_, same⟩ | more
    · omega
    · omega
  · rw [skips]
    exact undisturbed.noSkip
  · rw [loop, newly]
    exact undisturbed.asleep
  · rw [loop]
    intro phase
    exact kept (undisturbed.entered phase)
  · rw [loop]
    intro phase
    rcases undisturbed.returning phase with ⟨passed, before⟩
    exact ⟨kept passed, awake before⟩
  · rw [loop]
    exact undisturbed.notSkipping

theorem Step.undisturbed (step : Step config s label next) (undisturbed : Undisturbed s)
    (finds : FindsRun s label) : Undisturbed next := by
  cases step with
  | accept step => cases step <;> exact undisturbed.outside rfl rfl rfl rfl
  | complete step => cases step <;> exact undisturbed.outside rfl rfl rfl rfl
  | submit step => cases step <;> exact undisturbed.outside rfl rfl rfl rfl
  | timer step => cases step <;> exact undisturbed.outside rfl rfl rfl rfl
  | enter step => exact step.undisturbed undisturbed finds
  | run step => exact step.undisturbed undisturbed
  | call step => exact step.undisturbed undisturbed
  | kernel step => cases step <;> exact undisturbed.move rfl (fun _ => rfl) rfl rfl

theorem initial_undisturbed (config : Config) (now : Int) (pending : List Addr) :
    Undisturbed (initial config now pending) :=
  ⟨le_refl _, rfl, nofun, nofun, nofun, nofun⟩

theorem reachable_undisturbed (reachable : (undisturbed config).Reachable s) :
    Undisturbed s := by
  apply reachable.invariant Undisturbed
  · intro state start
    rcases start with ⟨now, pending, rfl⟩
    exact initial_undisturbed config now pending
  · intro state label next _ undisturbed step
    exact Step.undisturbed step.2 undisturbed step.1

/-- As long as each compare-exchange of the loop finds `_S_run`, a notification
makes the loop skip nothing, and it returns with `_S_run` unless another
notification came after the compare-exchange. -/
theorem wakesOnce_of_findsRun (config : Config) (s : State)
    (reachable : (undisturbed config).Reachable s) : WakesOnce s := by
  have undisturbed := reachable_undisturbed reachable
  constructor
  · rw [undisturbed.noSkip]
    exact Nat.zero_le _
  · intro pc
    exact (undisturbed.returning (by rw [pc]; rfl)).2
  · intro pc _
    exact (undisturbed.returning (by rw [pc]; rfl)).1

/-- The loop is outside its sleep and finds `_S_notify`. -/
def Stuck (s : State) : Prop :=
  s.shared.state = .notify ∧ s.loop.pc.phase ≠ .asleep ∧ s.loop.pc.phase ≠ .entered ∧
    ∀ rc, s.loop.pc ≠ .update rc

theorem EnterStep.stuck (step : EnterStep config s label next) (stuck : Stuck s) :
    Stuck next := by
  rcases stuck with ⟨state, notAsleep, notEntered, notUpdating⟩
  cases step with
  | lock pc => exact ⟨state, nofun, nofun, nofun⟩
  | sleep pc running => exact absurd (running.symm.trans state) nofun
  | notified pc => exact ⟨state, nofun, nofun, nofun⟩
  | skip pc => exact ⟨state, nofun, nofun, nofun⟩
  | top pc => exact absurd (congrArg LoopPc.phase pc) notAsleep
  | unlock pc => exact absurd (congrArg LoopPc.phase pc) notAsleep
  | consume pc =>
      rename_i site minComplete timeout published
      cases site with
      | loop => exact absurd (congrArg LoopPc.phase pc) notAsleep
      | final => exact ⟨state, nofun, nofun, nofun⟩
  | short count pc =>
      rename_i site minComplete timeout fewer published
      cases site with
      | loop => exact absurd (congrArg LoopPc.phase pc) notAsleep
      | final => exact ⟨state, nofun, nofun, nofun⟩
  | fail rc pc =>
      rename_i site minComplete timeout fatal
      cases site with
      | loop => exact absurd (congrArg LoopPc.phase pc) notAsleep
      | final => exact ⟨state, nofun, nofun, nofun⟩
  | ready pc =>
      rename_i site minComplete submitted deadline posted
      cases site with
      | loop => exact absurd (congrArg LoopPc.phase pc) notEntered
      | final => exact ⟨state, nofun, nofun, nofun⟩
  | timeout rc pc =>
      rename_i site minComplete submitted deadline expired result
      cases site with
      | loop => exact absurd (congrArg LoopPc.phase pc) notEntered
      | final => exact ⟨state, nofun, nofun, nofun⟩
  | signal rc pc =>
      rename_i site minComplete submitted deadline result
      cases site with
      | loop => exact absurd (congrArg LoopPc.phase pc) notEntered
      | final => exact ⟨state, nofun, nofun, nofun⟩
  | store pc => exact absurd (congrArg LoopPc.phase pc) notEntered
  | throwLoop pc => exact absurd pc (notUpdating _)
  | timedOut pc => exact absurd pc (notUpdating _)
  | interrupted pc => exact absurd pc (notUpdating _)
  | consumed pc => exact absurd pc (notUpdating _)
  | throwFinal pc => exact ⟨state, nofun, nofun, nofun⟩
  | complete pc => exact ⟨state, nofun, nofun, nofun⟩

/-- A call never takes `_S_notify` back. -/
theorem CallStep.stuck (step : CallStep config s label next) (stuck : Stuck s) :
    Stuck next := by
  have kept : next.shared.state = .notify := by
    cases step with
    | exchangeAsleep => rfl
    | exchangeAwake => rfl
    | _ => exact stuck.1
  unfold Stuck
  rw [step.frame.1]
  exact ⟨kept, stuck.2⟩

theorem Step.stuck (step : Step config s label next) (stuck : Stuck s) : Stuck next := by
  cases step with
  | accept step => cases step <;> exact ⟨stuck.1, nofun, nofun, nofun⟩
  | complete step => cases step <;> exact ⟨stuck.1, nofun, nofun, nofun⟩
  | submit step => cases step <;> exact ⟨stuck.1, nofun, nofun, nofun⟩
  | timer step => cases step <;> exact ⟨stuck.1, nofun, nofun, nofun⟩
  | enter step => exact step.stuck stuck
  | run step =>
      cases step with
      | closeRetry => exact stuck
      | _ => exact ⟨stuck.1, nofun, nofun, nofun⟩
  | call step => exact step.stuck stuck
  | kernel step => cases step <;> exact stuck

/-- After a notification that did not find the loop asleep, the loop never
enters the kernel again: every later `_M_io_uring_enter` skips. -/
theorem Stuck.forever {later : State} (stuck : Stuck s)
    (reachable : (system config).Reachable s)
    (run : (system config).Continues s later) : Stuck later :=
  run.invariant Stuck (fun _ _ _ _ stuck step => Step.stuck step stuck) reachable stuck

/-- A notification during the wait of the small scheduler: the loop wakes up
for a CQE and stores `_S_run` over `_S_notify`. -/
theorem wakesOnce_notified_asleep :
    ∃ s, s.loop.pc = .enterReturned ∧ s.log.exchanges = 1 ∧ s.shared.state = .run ∧
      WakesOnce s := by
  have lenient : Lenient FindsRun :=
    ⟨fun _ => nofun, fun _ _ _ _ _ _ _ _ => nofun, fun _ running _ => running⟩
  have quiet := lenient.quiet
  have woken : ∀ s, FindsRun s .wake := fun _ => nofun
  have begun := lenient.blocked.step ⟨quiet _, .call (.beginNotify 0 rfl)⟩
  have exchanged := begun.step ⟨quiet _, .call (.exchangeAsleep 0 rfl rfl)⟩
  have posted := exchanged.step
    ⟨quiet _, .kernel (.postMore ⟨7, 1, 2⟩ (by decide) (by decide) (by decide))⟩
  have ready := posted.step ⟨woken _, .enter (.ready rfl (by decide))⟩
  have stored := ready.step ⟨quiet _, .enter (.store rfl)⟩
  have updated := stored.step ⟨quiet _, .enter (.consumed rfl (by decide))⟩
  exact ⟨_, rfl, rfl, rfl, wakesOnce_of_findsRun small _ updated⟩

/-- One notification before the first compare-exchange: the loop returns with
`_S_notify` and skips the kernel in this iteration and in the next, with an entry
pending all along. -/
theorem notified_once_skips_twice :
    ∃ s, (system small).Reachable s ∧ s.loop.pc = .enterReturned ∧
      s.shared.state = .notify ∧ s.log.exchanges = 1 ∧ s.log.skips = 2 ∧
      s.log.exchangesAtCas = s.log.exchangesBefore ∧ s.log.entered = none ∧
      s.loop.nNewlySubmit = 1 ∧ ¬ WakesOnce s := by
  have quiet := lenient_true.quiet
  have start : ((system small).restrict fun _ _ => True).Reachable (initial small 0 [7]) :=
    .init ⟨0, [7], rfl⟩
  have begun := start.step ⟨trivial, .call (.beginNotify 0 rfl)⟩
  have exchanged := begun.step ⟨trivial, .call (.exchangeAwake 0 rfl nofun)⟩
  have accepted := accept_empty quiet (accept_empty quiet exchanged rfl rfl) rfl rfl
  have head := accepted.step ⟨trivial, .accept (.doneLoop rfl)⟩
  have pass := head.step ⟨trivial, .complete (.begin rfl)⟩
  have drained := pass.step ⟨trivial, .complete (.doneLoop rfl rfl)⟩
  have stop := drained.step ⟨trivial, .submit (.stopLoad rfl)⟩
  have submitting := stop.step ⟨trivial, .submit (.begin rfl)⟩
  have published := submitting.step ⟨trivial, .submit (.publish rfl rfl (by decide) rfl)⟩
  have added := published.step ⟨trivial, .submit (.done rfl (.inl rfl))⟩
  have tested := added.step ⟨trivial, .timer (.doneLoop rfl)⟩
  have entering := tested.step ⟨trivial, .run (.stay rfl (by decide))⟩
  have locked := entering.step ⟨trivial, .enter (.lock rfl rfl)⟩
  have failed := locked.step ⟨trivial, .enter (.notified rfl nofun)⟩
  have skipped := failed.step ⟨trivial, .enter (.skip rfl)⟩
  have again := skipped.step ⟨trivial, .run (.again rfl)⟩
  have accepted' := accept_empty quiet (accept_empty quiet again rfl rfl) rfl rfl
  have head' := accepted'.step ⟨trivial, .accept (.doneLoop rfl)⟩
  have pass' := head'.step ⟨trivial, .complete (.begin rfl)⟩
  have drained' := pass'.step ⟨trivial, .complete (.doneLoop rfl rfl)⟩
  have stop' := drained'.step ⟨trivial, .submit (.stopLoad rfl)⟩
  have submitting' := stop'.step ⟨trivial, .submit (.begin rfl)⟩
  have added' := submitting'.step ⟨trivial, .submit (.done rfl (.inl rfl))⟩
  have tested' := added'.step ⟨trivial, .timer (.doneLoop rfl)⟩
  have entering' := tested'.step ⟨trivial, .run (.stay rfl (by decide))⟩
  have locked' := entering'.step ⟨trivial, .enter (.lock rfl rfl)⟩
  have failed' := locked'.step ⟨trivial, .enter (.notified rfl nofun)⟩
  have skipped' := failed'.step ⟨trivial, .enter (.skip rfl)⟩
  refine ⟨_, skipped'.of_restrict, rfl, rfl, rfl, rfl, rfl, rfl, rfl, ?_⟩
  intro wakes
  exact absurd wakes.skipped (by decide)

end Entering

end NgrCore.Scheduler
