import NgrCore.Scheduler.RemoteSubmit

/-!
Owns the timer tasks of a run: their way from the remote `_M_submit` over
`__dr_pending_` to the heap or to `__complete_`.

Proves that the heap and the completed timers are what the history of handled
tasks says, that timers make progress in the runs where each of them is stopped
in time, and when no timer is completed twice or left in the heap after its
completion.
-/

namespace NgrCore.Scheduler

open NgrCore.Library

/-- The tasks in the local `__tmp` of `_M_io_uring_submit`. -/
def LoopPc.batch : LoopPc → List Addr
  | .timers _ _ tmp => tmp
  | _ => []

/-- The tasks that were handled, and those the loop accepted and did not handle
yet. -/
def arrived (s : State) : List Addr :=
  s.log.handled.map Prod.fst ++ s.loop.pc.batch ++ s.loop.drPending

/-- A remote `_M_submit` still owns the timer task. -/
def Awaits (config : Config) (call : Nat → Call) (op : Addr) : Prop :=
  ∃ i queue, (call i).kind = .submit queue op ∧ queue ∉ config.ioRemote ∧
    (call i).holding = some op

/-- No task arrived more often than it was submitted, the ones that a remote
`_M_submit` still owns not counted. -/
structure Arrivals (config : Config) (call : Nat → Call) (submitted arrived : List Addr) :
    Prop where
  begun : ∀ op, arrived.count op ≤ submitted.count op
  awaited : ∀ op, Awaits config call op → arrived.count op + 1 ≤ submitted.count op

/-- The invariant of the timer tasks: where the history of handled tasks left
the timers, and where the accepted and the submitted tasks are. -/
structure TimerBook (config : Config) (s : State) : Prop where
  heap : s.loop.heap.Perm (scheduled config.timer (normalTasks s.log.handled))
  completed : s.log.completed = completions config.timer s.log.handled
  accepted : s.log.accepted = loopTasks s.log.handled ++ s.loop.pc.batch ++ s.loop.drPending
  arrivals : Arrivals config s.call s.log.submitted (arrived s)

/-- What most steps leave alone. -/
structure TimerFrame (s next : State) : Prop where
  heap : next.loop.heap = s.loop.heap
  pending : next.loop.drPending = s.loop.drPending
  batch : next.loop.pc.batch = s.loop.pc.batch
  submitted : next.log.submitted = s.log.submitted
  accepted : next.log.accepted = s.log.accepted
  handled : next.log.handled = s.log.handled
  completed : next.log.completed = s.log.completed

section Awaiting

variable {config : Config} {call : Nat → Call} {op : Addr}

/-- A step of a call gives a timer task to nobody else. -/
theorem Awaits.of_update {i : Nat} {changed : Call}
    (awaits : Awaits config (Function.update call i changed) op) :
    Awaits config call op ∨ (∃ queue, changed.kind = .submit queue op ∧
      queue ∉ config.ioRemote ∧ changed.holding = some op) := by
  rcases awaits with ⟨j, queue, kind, dr, holds⟩
  by_cases this : j = i
  · subst this
    rw [Function.update_self] at kind holds
    exact .inr ⟨queue, kind, dr, holds⟩
  · rw [Function.update_of_ne this] at kind holds
    exact .inl ⟨j, queue, kind, dr, holds⟩

/-- A call that moves on owns no task that it did not own before. -/
theorem Awaits.of_move {i : Nat} {pc : CallPc} (active : (call i).pc ≠ .idle)
    (unsettled : (call i).pc ≠ .rejected)
    (awaits : Awaits config (Function.update call i { call i with pc := pc }) op) :
    Awaits config call op := by
  rcases awaits.of_update with before | ⟨queue, kind, dr, holds⟩
  · exact before
  · refine ⟨i, queue, kind, dr, ?_⟩
    rw [Call.holding_eq_some] at holds ⊢
    exact ⟨holds.1, active, unsettled, holds.2.2.2⟩

theorem Awaits.of_rejected {i : Nat}
    (awaits : Awaits config (Function.update call i { call i with pc := .rejected }) op) :
    ∃ j, j ≠ i ∧ (call j).holding = some op := by
  rcases awaits with ⟨j, queue, kind, dr, holds⟩
  by_cases this : j = i
  · subst this
    rw [Function.update_self] at holds
    exact absurd rfl (Call.holding_eq_some.mp holds).2.2.1
  · rw [Function.update_of_ne this] at holds
    exact ⟨j, this, holds⟩

/-- What `_M_accept_remote_request` takes is owned by no call any more. -/
theorem Awaits.of_take {index : Nat} {taken : List Addr}
    (awaits : Awaits config (fun i => (call i).take index taken) op) :
    Awaits config call op ∧ op ∉ taken := by
  rcases awaits with ⟨i, queue, kind, dr, holds⟩
  rw [Call.take_kind] at kind
  by_cases lost : ∃ target ∈ taken, (call i).holding = some target
  · rcases lost with ⟨target, member, before⟩
    have drained := Call.take_of_holding index before member
    have fresh := (Call.holding_eq_some.mp holds).2.2.2
    rw [drained] at fresh
    exact absurd fresh nofun
  · have same : (call i).take index taken = call i := by
      apply Call.take_of_not_holding
      intro target member before
      exact lost ⟨target, member, before⟩
    have still : (call i).holding = some op := same ▸ holds
    refine ⟨⟨i, queue, kind, dr, still⟩, ?_⟩
    intro member
    exact lost ⟨op, member, still⟩

/-! ### Arrivals -/

variable {submitted arrived : List Addr}

theorem Arrivals.calls {other : Nat → Call} (arrivals : Arrivals config call submitted arrived)
    (fewer : ∀ op, Awaits config other op → Awaits config call op) :
    Arrivals config other submitted arrived :=
  ⟨arrivals.begun, fun op awaits => arrivals.awaited op (fewer op awaits)⟩

theorem Arrivals.submit (arrivals : Arrivals config call submitted arrived) (i queue : Nat)
    (op : Addr) (pc : CallPc) :
    Arrivals config (Function.update call i { kind := .submit queue op, pc := pc })
      (submitted ++ [op]) arrived := by
  have more : ∀ target, (submitted ++ [op]).count target =
      submitted.count target + [op].count target := fun _ => List.count_append
  constructor
  · intro target
    have begun := arrivals.begun target
    rw [more target]
    omega
  · intro target awaits
    rw [more target]
    rcases awaits.of_update with before | ⟨other, kind, _, _⟩
    · have awaited := arrivals.awaited target before
      omega
    · have begun := arrivals.begun op
      have same : op = target := (CallKind.submit.inj kind).2
      rw [← same, List.count_singleton_self]
      omega

theorem Arrivals.accept (arrivals : Arrivals config call submitted arrived) (index : Nat)
    {taken : List Addr} (nodup : taken.Nodup) (owned : ∀ op ∈ taken, Awaits config call op) :
    Arrivals config (fun i => (call i).take index taken) submitted (arrived ++ taken) := by
  constructor
  · intro op
    have begun := arrivals.begun op
    have once : taken.count op ≤ 1 := List.nodup_iff_count_le_one.mp nodup op
    rw [List.count_append]
    by_cases member : op ∈ taken
    · have awaited := arrivals.awaited op (owned op member)
      omega
    · rw [List.count_eq_zero_of_not_mem member]
      exact begun
  · intro op awaits
    rcases awaits.of_take with ⟨before, absent⟩
    rw [List.count_append, List.count_eq_zero_of_not_mem absent]
    exact arrivals.awaited op before

theorem Arrivals.reject (arrivals : Arrivals config call submitted arrived) {i queue : Nat}
    (kind : (call i).kind = .submit queue op) (dr : queue ∉ config.ioRemote)
    (holds : (call i).holding = some op)
    (only : ∀ j, (call j).holding = some op → j = i) {after : List Addr}
    (more : after.Perm (op :: arrived)) :
    Arrivals config (Function.update call i { call i with pc := .rejected }) submitted after := by
  constructor
  · intro target
    rw [more.count_eq, List.count_cons]
    by_cases this : op = target
    · subst this
      have awaited := arrivals.awaited op ⟨i, queue, kind, dr, holds⟩
      simpa using awaited
    · simpa [this] using arrivals.begun target
  · intro target awaits
    rcases awaits.of_rejected with ⟨j, different, theirs⟩
    have this : op ≠ target := by
      intro same
      rw [← same] at theirs
      exact different (only j theirs)
    have owner := Call.holding_eq_some.mp holds
    rw [more.count_eq, List.count_cons]
    simpa [this] using arrivals.awaited target (awaits.of_move owner.2.1 owner.2.2.1)

end Awaiting

section Steps

variable {config : Config} {s next : State} {label : Label}

theorem TimerFrame.arrived (frame : TimerFrame s next) : arrived next = arrived s := by
  unfold Scheduler.arrived
  rw [frame.handled, frame.batch, frame.pending]

theorem TimerFrame.book (frame : TimerFrame s next)
    (awaited : ∀ op, Awaits config next.call op → Awaits config s.call op)
    (book : TimerBook config s) : TimerBook config next := by
  constructor
  · rw [frame.heap, frame.handled]
    exact book.heap
  · rw [frame.completed, frame.handled]
    exact book.completed
  · rw [frame.accepted, frame.handled, frame.batch, frame.pending]
    exact book.accepted
  · rw [frame.arrived, frame.submitted]
    exact book.arrivals.calls awaited

theorem CompleteStep.timerFrame (step : CompleteStep s label next) : TimerFrame s next := by
  have batch : next.loop.pc.batch = s.loop.pc.batch := by cases step <;> simp [LoopPc.batch, *]
  cases step <;> exact ⟨rfl, rfl, batch, rfl, rfl, rfl, rfl⟩

theorem EnterStep.timerFrame (step : EnterStep config s label next) : TimerFrame s next := by
  have batch : next.loop.pc.batch = s.loop.pc.batch := by cases step <;> simp [LoopPc.batch, *]
  cases step <;> exact ⟨rfl, rfl, batch, rfl, rfl, rfl, rfl⟩

theorem RunStep.timerFrame (step : RunStep config s label next) : TimerFrame s next := by
  have batch : next.loop.pc.batch = s.loop.pc.batch := by cases step <;> simp [LoopPc.batch, *]
  cases step <;> exact ⟨rfl, rfl, batch, rfl, rfl, rfl, rfl⟩

theorem KernelStep.timerFrame (step : KernelStep config s label next) : TimerFrame s next := by
  cases step <;> exact ⟨rfl, rfl, rfl, rfl, rfl, rfl, rfl⟩

theorem AcceptStep.timerBook (step : AcceptStep config s label next) (remote : Remote config s)
    (book : TimerBook config s) : TimerBook config next := by
  have moved : ∀ {pc : LoopPc} {accepts : Nat}, s.loop.pc.batch = [] → pc.batch = [] →
      TimerBook config { s with loop.pc := pc, log.accepts := accepts } := by
    intro pc accepts before after
    have frame : TimerFrame s { s with loop.pc := pc, log.accepts := accepts } :=
      ⟨rfl, rfl, after.trans before.symm, rfl, rfl, rfl, rfl⟩
    exact frame.book (fun _ awaits => awaits) book
  cases step with
  | load pc => exact moved (by rw [pc]; rfl) rfl
  | retry pc => exact moved (by rw [pc]; rfl) rfl
  | doneLoop pc => exact moved (by rw [pc]; rfl) rfl
  | doneFinal pc => exact moved (by rw [pc]; rfl) rfl
  | take pc unchanged created chain =>
      rename_i site queue todo old fuel links reversed taken
      rw [← unchanged] at created
      rcases remote.queued.taken created chain with ⟨nodup, members, _⟩
      have empty : s.loop.pc.batch = [] := by rw [pc]; rfl
      have accepted := book.accepted
      rw [empty] at accepted
      by_cases io : queue ∈ config.ioRemote
      · simp only [if_pos io]
        have same : arrived { s with loop.pc := .accept site todo } = arrived s := by
          unfold arrived
          rw [empty]
          rfl
        refine ⟨book.heap, book.completed, accepted, ?_⟩
        exact same ▸ book.arrivals.calls fun op awaits => awaits.of_take.1
      · simp only [if_neg io]
        have more : arrived { s with
            loop.pc := .accept site todo
            loop.drPending := s.loop.drPending ++ taken } = arrived s ++ taken := by
          unfold arrived
          rw [empty]
          exact (List.append_assoc _ _ _).symm
        have owned : ∀ op ∈ taken, Awaits config s.call op := by
          intro op member
          rcases (members op).mp member with ⟨i, linked⟩
          exact ⟨i, queue, linked.1, io, linked.holding⟩
        refine ⟨book.heap, book.completed, ?_, ?_⟩
        · show s.log.accepted ++ taken = _ ++ [] ++ (s.loop.drPending ++ taken)
          rw [accepted, List.append_assoc]
        · exact more ▸ book.arrivals.accept s.log.accepts nodup owned

theorem SubmitStep.timerBook (step : SubmitStep config s label next)
    (book : TimerBook config s) : TimerBook config next := by
  have moved : ∀ {pc : LoopPc} {kernel : Kernel} {ioPending : List Addr},
      s.loop.pc.batch = [] → pc.batch = [] →
      TimerBook config { s with
        loop.pc := pc, loop.ioPending := ioPending, kernel := kernel } := by
    intro pc kernel ioPending before after
    have frame : TimerFrame s { s with
        loop.pc := pc, loop.ioPending := ioPending, kernel := kernel } :=
      ⟨rfl, rfl, after.trans before.symm, rfl, rfl, rfl, rfl⟩
    exact frame.book (fun _ awaits => awaits) book
  cases step with
  | stopLoad pc => exact moved (by rw [pc]; rfl) rfl
  | begin pc => exact moved (by rw [pc]; rfl) rfl
  | publish pc => exact moved (by rw [pc]; rfl) rfl
  | stop pushes pc => exact moved (by rw [pc]; rfl) rfl
  | done pc =>
      rename_i site stop cur max r finished
      have empty : s.loop.pc.batch = [] := by rw [pc]; rfl
      have same : s.log.handled.map Prod.fst ++ s.loop.drPending ++ [] = arrived s := by
        unfold arrived
        rw [empty, List.append_nil, List.append_nil]
      constructor
      · exact book.heap
      · exact book.completed
      · have accepted := book.accepted
        rw [empty, List.append_nil] at accepted
        show s.log.accepted = _ ++ s.loop.drPending ++ []
        rw [accepted, List.append_nil]
      · have arrivals := book.arrivals
        rw [← same] at arrivals
        exact arrivals

theorem TimerBook.handle (book : TimerBook config s) {op : Addr} {rest : List Addr}
    (batch : s.loop.pc.batch = op :: rest) (handling : Handling)
    (notRejected : handling ≠ .rejected)
    (handled : next.log.handled = s.log.handled ++ [(op, handling)])
    (heap : next.loop.heap.Perm (scheduled config.timer (normalTasks next.log.handled)))
    (completed : next.log.completed = s.log.completed ++
      if completes config.timer (op, handling) then [subject config.timer op] else [])
    (after : next.loop.pc.batch = rest) (pending : next.loop.drPending = s.loop.drPending)
    (submitted : next.log.submitted = s.log.submitted)
    (accepted : next.log.accepted = s.log.accepted) (call : next.call = s.call) :
    TimerBook config next := by
  have same : arrived next = arrived s := by
    unfold arrived
    rw [handled, after, pending, batch]
    simp
  constructor
  · exact heap
  · rw [completed, handled, completions_concat, book.completed]
  · rw [accepted, handled, after, pending, loopTasks_concat, if_neg notRejected, book.accepted,
      batch]
    simp
  · rw [same, submitted, call]
    exact book.arrivals

theorem TimerStep.timerBook (step : TimerStep config s label next)
    (book : TimerBook config s) : TimerBook config next := by
  cases step with
  | manualStop pushes pc =>
      rename_i site op rest
      have batch : s.loop.pc.batch = op :: rest := by rw [pc]; rfl
      have heap : s.loop.heap.Perm
          (scheduled config.timer (normalTasks (s.log.handled ++ [(op, .stopping)]))) := by
        rw [normalTasks_concat]
        simpa using book.heap
      exact book.handle batch .stopping (by decide) rfl heap rfl rfl rfl rfl rfl rfl
  | schedule pc command =>
      rename_i site op rest key
      have batch : s.loop.pc.batch = op :: rest := by rw [pc]; rfl
      have isSchedule : (config.timer op).isSchedule = true := by rw [command]; rfl
      have heap : (timerPush config.timer s.loop.heap op).Perm
          (scheduled config.timer (normalTasks (s.log.handled ++ [(op, .normal)]))) := by
        rw [normalTasks_concat, if_pos rfl, scheduled_concat, afterTask_of_isSchedule isSchedule]
        exact (timerPush_perm _ _ _).trans (book.heap.cons op)
      have completed : s.log.completed = s.log.completed ++
          if completes config.timer (op, .normal) then [subject config.timer op] else [] := by
        simp [completes, isSchedule]
      exact book.handle batch .normal (by decide) rfl heap completed rfl rfl rfl rfl rfl
  | stop pushes pc command =>
      rename_i site op target rest
      have batch : s.loop.pc.batch = op :: rest := by rw [pc]; rfl
      have isStop : (config.timer op).isSchedule = false := by rw [command]; rfl
      have about : subject config.timer op = target := by unfold subject; rw [command]
      have heap : (timerRemove config.timer s.loop.heap target).2.Perm
          (scheduled config.timer (normalTasks (s.log.handled ++ [(op, .normal)]))) := by
        rw [normalTasks_concat, if_pos rfl, scheduled_concat, afterTask_of_stop isStop, about]
        exact (timerRemove_perm _ _ _).trans (book.heap.erase target)
      have completed : s.log.completed ++ [target] = s.log.completed ++
          if completes config.timer (op, .normal) then [subject config.timer op] else [] := by
        simp [completes, isStop, about]
      exact book.handle batch .normal (by decide) rfl heap completed rfl rfl rfl rfl rfl
  | doneLoop pc =>
      have frame : TimerFrame s { s with loop.pc := .exitTest } :=
        ⟨rfl, rfl, by rw [pc]; rfl, rfl, rfl, rfl, rfl⟩
      exact frame.book (fun _ awaits => awaits) book
  | doneFinal pc =>
      have frame : TimerFrame s { s with
          loop.pc := .syscall .final (toUnsigned s.loop.nTotalSubmit).toNat none } :=
        ⟨rfl, rfl, by rw [pc]; rfl, rfl, rfl, rfl, rfl⟩
      exact frame.book (fun _ awaits => awaits) book

theorem TimerBook.move (book : TimerBook config s) (frame : TimerFrame s next) (i : Nat)
    {before after : CallPc} (pc : (s.call i).pc = before) (active : before ≠ .idle)
    (unsettled : before ≠ .rejected)
    (call : next.call = Function.update s.call i { s.call i with pc := after }) :
    TimerBook config next := by
  apply frame.book _ book
  intro op awaits
  rw [call] at awaits
  exact awaits.of_move (pc ▸ active) (pc ▸ unsettled)

theorem TimerBook.begin (book : TimerBook config s) (frame : TimerFrame s next) (i : Nat)
    (changed : Call)
    (other : ∀ queue op, changed.kind = .submit queue op → queue ∈ config.ioRemote)
    (call : next.call = Function.update s.call i changed) : TimerBook config next := by
  apply frame.book _ book
  intro op awaits
  rw [call] at awaits
  rcases awaits.of_update with before | ⟨queue, kind, dr, _⟩
  · exact before
  · exact absurd (other queue op kind) dr

theorem CallStep.timerBook (step : CallStep config s label next) (remote : Remote config s)
    (book : TimerBook config s) : TimerBook config next := by
  have frame : ∀ {shared : Shared} {call : Nat → Call} {pushed : List (Nat × Addr)}
      {exchanges : Nat}, TimerFrame s { s with
        shared := shared, call := call, log.pushed := pushed, log.exchanges := exchanges } :=
    ⟨rfl, rfl, rfl, rfl, rfl, rfl, rfl⟩
  cases step with
  | beginSubmit i queue op idle registered free =>
      by_cases io : queue ∈ config.ioRemote
      · simp only [if_pos io]
        apply book.begin frame i { kind := .submit queue op, pc := .reserve 0 } _ rfl
        intro other target kind
        exact (CallKind.submit.inj kind).1 ▸ io
      · simp only [if_neg io]
        exact ⟨book.heap, book.completed, book.accepted,
          book.arrivals.submit i queue op (.reserve 0)⟩
  | beginStop i idle =>
      exact book.begin frame i { kind := .requestStop, pc := .setStop } nofun rfl
  | beginNotify i idle =>
      exact book.begin frame i { kind := .notify, pc := .exchange } nofun rfl
  | reserve i pc => exact book.move frame i pc nofun nofun rfl
  | reserveRetry i pc => exact book.move frame i pc nofun nofun rfl
  | rejectIo i kind pc => exact book.move frame i pc nofun nofun rfl
  | rejectTimer i kind pc dr =>
      rename_i queue op
      have holds : (s.call i).holding = some op :=
        remote.queued.owned.preparing kind (by rw [pc]; nofun) (by rw [pc]; nofun) (by rw [pc]; rfl)
      have only : ∀ j, (s.call j).holding = some op → j = i := fun j theirs =>
        remote.queued.owned.distinct j i op theirs holds
      have more : ((s.log.handled ++ [(op, Handling.rejected)]).map Prod.fst ++
          s.loop.pc.batch ++ s.loop.drPending).Perm (op :: arrived s) := by
        rw [List.map_append, List.append_assoc, List.append_assoc]
        exact List.perm_middle.trans (by rw [arrived, List.append_assoc]; rfl)
      constructor
      · show s.loop.heap.Perm (scheduled config.timer (normalTasks (s.log.handled ++ _)))
        rw [normalTasks_concat]
        simpa using book.heap
      · show s.log.completed ++ _ = completions config.timer (s.log.handled ++ _)
        rw [completions_concat, book.completed]
        rfl
      · show s.log.accepted = loopTasks (s.log.handled ++ _) ++ s.loop.pc.batch ++ s.loop.drPending
        rw [loopTasks_concat, book.accepted, if_pos rfl, List.append_nil]
      · exact book.arrivals.reject kind dr holds only more
  | loadHead i kind pc => exact book.move frame i pc nofun nofun rfl
  | linkRetry i kind pc => exact book.move frame i pc nofun nofun rfl
  | link i kind pc => exact book.move frame i pc nofun nofun rfl
  | release i pc => exact book.move frame i pc nofun nofun rfl
  | setStop i pc => exact book.move frame i pc nofun nofun rfl
  | exchangeAsleep i pc => exact book.move frame i pc nofun nofun rfl
  | exchangeAwake i pc => exact book.move frame i pc nofun nofun rfl
  | lock i pc => exact book.move frame i pc nofun nofun rfl
  | unlock i pc => exact book.move frame i pc nofun nofun rfl
  | write i pc => exact book.move frame i pc nofun nofun rfl

theorem Step.timerBook (step : Step config s label next) (remote : Remote config s)
    (book : TimerBook config s) : TimerBook config next := by
  cases step with
  | accept step => exact step.timerBook remote book
  | complete step =>
      have frame : TimerFrame s next := step.timerFrame
      have call : next.call = s.call := (show RemoteFrame config s next from step.remoteFrame).call
      exact frame.book (fun _ awaits => call ▸ awaits) book
  | submit step => exact step.timerBook book
  | timer step => exact step.timerBook book
  | enter step =>
      have call : next.call = s.call := step.remoteFrame.call
      exact step.timerFrame.book (fun _ awaits => call ▸ awaits) book
  | run step =>
      have call : next.call = s.call := by cases step <;> rfl
      exact step.timerFrame.book (fun _ awaits => call ▸ awaits) book
  | call step => exact step.timerBook remote book
  | kernel step =>
      have call : next.call = s.call := step.remoteFrame.call
      exact step.timerFrame.book (fun _ awaits => call ▸ awaits) book

theorem reachable_timerBook (reachable : (system config).Reachable s) : TimerBook config s := by
  apply reachable.invariant (TimerBook config)
  · intro state start
    rcases start with ⟨now, pending, rfl⟩
    refine ⟨List.Perm.refl [], rfl, rfl, fun op => Nat.le_refl 0, ?_⟩
    intro op awaits
    rcases awaits with ⟨i, queue, kind, _⟩
    exact absurd kind nofun
  · intro state label next earlier book step
    exact Step.timerBook step (reachable_remote earlier) book

/-! ### Exclusivity -/

/-- No timer is completed twice, and a completed timer is not in the heap. -/
def Exclusive (s : State) : Prop :=
  ∀ t, s.log.completed.count t ≤ 1 ∧ (t ∈ s.log.completed → t ∉ s.loop.heap)

/-- When every timer is submitted once at most, whatever the calls and their
interleaving, it depends on the order and the mode in which the tasks about each
timer were handled. -/
theorem exclusive_iff (config : Config) (s : State) (reachable : (system config).Reachable s)
    (once : ∀ t, (config.timer t).isSchedule = true → s.log.submitted.count t ≤ 1) :
    Exclusive s ↔ ∀ t, StoppedAtMostOnce (story config.timer s.log.handled t) := by
  have book := reachable_timerBook reachable
  apply forall_congr'
  intro t
  have few : (config.timer t).isSchedule = true → (s.log.handled.map Prod.fst).count t ≤ 1 := by
    intro schedule
    have begun := book.arrivals.begun t
    have bound := once t schedule
    unfold arrived at begun
    simp only [List.count_append] at begun
    omega
  rw [book.completed, book.heap.mem_iff]
  exact exclusive_iff_story s.log.handled t few

/-- Two timer tasks submitted in order before the first pass of the small
scheduler, and accepted. -/
theorem two_accepted (Condition : State → Label → Prop) (quiet : ∀ s, Condition s .tau)
    (first second : Addr) (different : first ≠ second) :
    ∃ shared call, shared.nSubmitInFlight = 0 ∧ shared.state ≠ .sleep ∧
      shared.stopRequested = false ∧ (∀ queue, shared.head queue = none) ∧
      (call 2).pc = .idle ∧
      ((system small).restrict Condition).Reachable {
        shared := shared
        call := call
        loop := { pc := .accept .loop [], drPending := [first, second] }
        kernel := { now := 0 }
        log := { passStart := 0, exchanges := 2, pushed := [(1, first), (1, second)],
                 submitted := [first, second], accepted := [first, second] } } := by
  have start : ((system small).restrict Condition).Reachable (initial small 0 []) :=
    .init ⟨0, [], rfl⟩
  have nobody : ∀ op j, ((initial small 0 []).call j).holding ≠ some op := fun _ _ => nofun
  have one := submit_remote quiet 0 1 first start rfl (by decide) (nobody first) rfl nofun
  have free := Call.free_update (nobody second) 0 { kind := .submit 1 first, pc := .returned }
    fun same => different (Option.some.inj same)
  have two := submit_remote quiet 1 1 second one rfl (by decide) free rfl nofun
  have visited := accept_empty quiet two rfl rfl
  have order : Chain
      (Function.update (Function.update (fun _ => none) first none) second (some first))
      (some second) [second, first] := by
    refine ⟨rfl, ?_⟩
    rw [Function.update_self]
    refine ⟨rfl, ?_⟩
    rw [Function.update_of_ne different, Function.update_self]
    rfl
  rcases accept_take quiet visited rfl [second, first] order with ⟨links, taken⟩
  have awake : Sg.notify ≠ .sleep := nofun
  refine ⟨_, _, rfl, awake, rfl, ?_, rfl, taken⟩
  intro queue
  by_cases this : queue = 1
  · rw [this]
    rfl
  · simp [Function.update_of_ne this, initial]

/-- A first pass of the small scheduler, up to the end of its submission. -/
theorem pass_begun {Condition : State → Label → Prop} (quiet : ∀ s, Condition s .tau)
    {shared : Shared} {call : Nat → Call} {batch : List Addr} {now : Int} {log : Log}
    (reachable : ((system small).restrict Condition).Reachable {
      shared := shared, call := call, kernel := { now := now }, log := log
      loop := { pc := .accept .loop [], drPending := batch } }) :
    ∃ max, ((system small).restrict Condition).Reachable {
      shared := shared, call := call, kernel := { now := now }
      loop := { pc := .submit .loop shared.stopRequested shared.stopRequested max 0,
                drPending := batch }
      log := { log with accepts := log.accepts + 1, passStart := now } } := by
  have head := reachable.step ⟨quiet _, .accept (.doneLoop rfl)⟩
  have begun := head.step ⟨quiet _, .complete (.begin rfl)⟩
  have drained := begun.step ⟨quiet _, .complete (.doneLoop rfl rfl)⟩
  have stop := drained.step ⟨quiet _, .submit (.stopLoad rfl)⟩
  have submitting := stop.step ⟨quiet _, .submit (.begin rfl)⟩
  exact ⟨_, submitting⟩

/-- A timer and the only task that stops it. -/
theorem exclusive_stopped :
    ∃ s, s.log.submitted = [8, 9] ∧ s.log.completed = [8] ∧ Exclusive s := by
  have quiet := lenient_true.quiet
  rcases two_accepted (fun _ _ => True) quiet 8 9 (by decide) with
      ⟨shared, call, _, _, going, _, _, start⟩
  rcases pass_begun quiet start with ⟨max, begun⟩
  rw [going] at begun
  have added := begun.step ⟨trivial, .submit (.done rfl (.inl rfl))⟩
  have scheduling := added.step ⟨trivial, .timer (.schedule rfl rfl)⟩
  have stopping := scheduling.step ⟨trivial, .timer (.stop [] rfl rfl)⟩
  have distinct : [8, 9].Nodup := by decide
  have kinds : ∀ t, StoppedAtMostOnce (story small.timer [(8, .normal), (9, .normal)] t) := by
    intro t
    by_cases this : t = 8
    · subst this
      exact .inr (by decide)
    · left
      have nothing : story small.timer [(8, .normal), (9, .normal)] t = [] := by
        simp [story, subject, small, Ne.symm this]
      rw [nothing]
      exact Nat.zero_le 1
  exact ⟨_, rfl, rfl, (exclusive_iff small _ stopping.of_restrict
    fun t _ => List.nodup_iff_count_le_one.mp distinct t).mpr kinds⟩

/-- A stop accepted before its schedule leaves the completed timer in the heap;
a schedule and its stop handled in stop mode complete the timer twice. -/
theorem completed_twice_or_scheduled :
    (∃ s, (system small).Reachable s ∧ s.log.submitted = [9, 8] ∧ s.log.completed = [8] ∧
      s.loop.heap = [8] ∧ ¬ Exclusive s) ∧
    (∃ s, (system small).Reachable s ∧ s.log.submitted = [8, 9] ∧ s.log.completed = [8, 8] ∧
      ¬ Exclusive s) := by
  have quiet := lenient_true.quiet
  constructor
  · rcases two_accepted (fun _ _ => True) quiet 9 8 (by decide) with
      ⟨shared, call, _, _, going, _, _, start⟩
    rcases pass_begun quiet start with ⟨max, begun⟩
    rw [going] at begun
    have added := begun.step ⟨trivial, .submit (.done rfl (.inl rfl))⟩
    have stopping := added.step ⟨trivial, .timer (.stop [] rfl rfl)⟩
    have scheduling := stopping.step ⟨trivial, .timer (.schedule rfl rfl)⟩
    refine ⟨_, scheduling.of_restrict, rfl, rfl, rfl, ?_⟩
    intro exclusive
    exact (exclusive 8).2 (List.mem_singleton_self 8) (List.mem_singleton_self 8)
  · rcases two_accepted (fun _ _ => True) quiet 8 9 (by decide) with
      ⟨shared, call, _, awake, _, _, idle, start⟩
    have asked := start.step ⟨trivial, .call (.beginStop 2 idle)⟩
    have stop := asked.step ⟨trivial, .call (.setStop 2 rfl)⟩
    have notified := stop.step ⟨trivial, .call (.exchangeAwake 2 rfl awake)⟩
    rcases pass_begun quiet notified with ⟨max, begun⟩
    have added := begun.step ⟨trivial, .submit (.done rfl (.inl rfl))⟩
    have first := added.step ⟨trivial, .timer (.manualStop [] rfl)⟩
    have second := first.step ⟨trivial, .timer (.manualStop [] rfl)⟩
    refine ⟨_, second.of_restrict, rfl, rfl, ?_⟩
    intro exclusive
    have once : [8, 8].count 8 ≤ 1 := (exclusive 8).1
    exact absurd once (by decide)

/-! ### Progress -/

/-- A condition on runs: before a pass ends that began at or after the deadline
of a timer, and before the loop is left, a task that stops the timer was
handled. -/
structure StopsInTime (config : Config) (s : State) (label : Label) : Prop where
  due : label = .submitted → ∀ stop cur max r, s.loop.pc = .submit .loop stop cur max r →
    ∀ t ∈ scheduled config.timer
        (normalTasks s.log.handled ++ if stop then [] else s.loop.drPending),
      s.log.passStart < (config.timer t).key.deadline
  left : label = .exit → scheduled config.timer (normalTasks s.log.handled) = []

/-- No pass of `_M_run_some` leaves a timer in the heap whose deadline had passed
when it began, or an expired timer without its completion; and at the end all
accepted timers are completed. -/
structure TimersProgress (config : Config) (s : State) : Prop where
  pass : s.loop.pc = .exitTest →
    ∀ t ∈ s.loop.heap, s.log.passStart < (config.timer t).key.deadline
  fired : s.loop.pc = .exitTest → ∀ t key, config.timer t = .schedule key →
    key.deadline ≤ s.log.passStart → s.log.accepted.count t ≤ s.log.completed.count t
  finished : ∀ m, s.loop.pc = .finished m →
    s.loop.heap = [] ∧ s.loop.drPending = [] ∧
      ∀ t, (config.timer t).isSchedule = true →
        s.log.accepted.count t ≤ s.log.completed.count t

/-- What holds where the loop stands: after the timers of a pass, those still
scheduled are not due; after the loop, none is scheduled, and none becomes so. -/
def LoopPc.InTime (timer : Addr → TimerTask) (tasks pending : List Addr) (start : Int) :
    LoopPc → Prop
  | .timers .loop stop tmp => pending = [] ∧
      ∀ t ∈ scheduled timer (tasks ++ if stop then [] else tmp), start < (timer t).key.deadline
  | .exitTest => pending = [] ∧ ∀ t ∈ scheduled timer tasks, start < (timer t).key.deadline
  | .close => scheduled timer tasks = []
  | .accept .final _ => scheduled timer tasks = []
  | .reset .final _ _ _ => scheduled timer tasks = []
  | .submitBegin .final stop => stop = true ∧ scheduled timer tasks = []
  | .submit .final stop _ _ _ => stop = true ∧ scheduled timer tasks = []
  | .timers .final stop _ => stop = true ∧ pending = [] ∧ scheduled timer tasks = []
  | .syscall .final _ _ => pending = [] ∧ scheduled timer tasks = []
  | .wait .final _ _ _ => pending = [] ∧ scheduled timer tasks = []
  | .returned .final _ => pending = [] ∧ scheduled timer tasks = []
  | .complete .final _ => pending = [] ∧ scheduled timer tasks = []
  | .finished _ => pending = [] ∧ scheduled timer tasks = []
  | _ => True

/-- The invariant of the runs where the timers are stopped in time. -/
def InTime (config : Config) (s : State) : Prop :=
  s.loop.pc.InTime config.timer (normalTasks s.log.handled) s.loop.drPending s.log.passStart

theorem AcceptStep.inTime (step : AcceptStep config s label next) (inTime : InTime config s) :
    InTime config next := by
  unfold InTime at inTime
  cases step with
  | load pc =>
      rename_i site queue todo
      rw [pc] at inTime
      cases site <;> exact inTime
  | retry pc =>
      rename_i site queue todo old
      rw [pc] at inTime
      cases site <;> exact inTime
  | take pc =>
      rename_i site queue todo old fuel links reversed taken unchanged created chain
      rw [pc] at inTime
      cases site <;> exact inTime
  | doneLoop pc => trivial
  | doneFinal pc =>
      rw [pc] at inTime
      exact ⟨rfl, inTime⟩

theorem CompleteStep.inTime (step : CompleteStep s label next) (inTime : InTime config s) :
    InTime config next := by
  unfold InTime at inTime
  cases step with
  | begin pc => trivial
  | handle pushes pc =>
      rename_i site n cqe rest posted
      rw [pc] at inTime
      cases site <;> exact inTime
  | doneLoop pc => trivial
  | doneFinal pc =>
      rw [pc] at inTime
      exact inTime

/-- Where the condition is used first: at the end of a submission in the
loop. -/
theorem SubmitStep.inTime (step : SubmitStep config s label next)
    (condition : StopsInTime config s label) (inTime : InTime config s) :
    InTime config next := by
  unfold InTime at inTime
  cases step with
  | stopLoad pc => trivial
  | begin pc =>
      rename_i site stop
      rw [pc] at inTime
      cases site <;> exact inTime
  | publish pc =>
      rename_i site stop cur max r op rest pending room goes
      rw [pc] at inTime
      cases site <;> exact inTime
  | stop pushes pc =>
      rename_i site stop cur max r op rest pending room stays
      rw [pc] at inTime
      cases site <;> exact inTime
  | done pc =>
      rename_i site stop cur max r finished
      rw [pc] at inTime
      cases site with
      | loop => exact ⟨rfl, condition.due rfl stop cur max r pc⟩
      | final => exact ⟨inTime.1, rfl, inTime.2⟩

theorem TimerStep.inTime (step : TimerStep config s label next) (inTime : InTime config s) :
    InTime config next := by
  have normal : ∀ (op : Addr), normalTasks (s.log.handled ++ [(op, .normal)]) =
      normalTasks s.log.handled ++ [op] := by
    intro op
    rw [normalTasks_concat, if_pos rfl]
  unfold InTime at inTime ⊢
  cases step with
  | manualStop pushes pc =>
      rename_i site op rest
      have same : normalTasks (s.log.handled ++ [(op, .stopping)]) =
          normalTasks s.log.handled := by
        rw [normalTasks_concat, if_neg nofun, List.append_nil]
      rw [pc] at inTime
      show LoopPc.InTime config.timer (normalTasks (s.log.handled ++ [(op, .stopping)])) _ _ _
      rw [same]
      cases site <;> exact inTime
  | schedule pc =>
      rename_i site op rest key command
      rw [pc] at inTime
      show LoopPc.InTime config.timer (normalTasks (s.log.handled ++ [(op, .normal)])) _ _ _
      rw [normal]
      cases site with
      | loop =>
          have later := inTime.2
          rw [if_neg Bool.false_ne_true, List.append_cons] at later
          exact ⟨inTime.1, later⟩
      | final => exact absurd inTime.1 Bool.false_ne_true
  | stop pushes pc =>
      rename_i site op target rest command
      rw [pc] at inTime
      show LoopPc.InTime config.timer (normalTasks (s.log.handled ++ [(op, .normal)])) _ _ _
      rw [normal]
      cases site with
      | loop =>
          have later := inTime.2
          rw [if_neg Bool.false_ne_true, List.append_cons] at later
          exact ⟨inTime.1, later⟩
      | final => exact absurd inTime.1 Bool.false_ne_true
  | doneLoop pc =>
      rw [pc] at inTime
      have later := inTime.2
      rw [ite_self, List.append_nil] at later
      exact ⟨inTime.1, later⟩
  | doneFinal pc =>
      rw [pc] at inTime
      exact inTime.2

theorem EnterStep.inTime (step : EnterStep config s label next) (inTime : InTime config s) :
    InTime config next := by
  unfold InTime at inTime
  cases step with
  | consume pc =>
      rename_i site minComplete timeout published
      rw [pc] at inTime
      cases site <;> exact inTime
  | short count pc =>
      rename_i site minComplete timeout fewer published
      rw [pc] at inTime
      cases site <;> exact inTime
  | fail rc pc =>
      rename_i site minComplete timeout fatal
      rw [pc] at inTime
      cases site <;> exact inTime
  | ready pc =>
      rename_i site minComplete submitted deadline posted
      rw [pc] at inTime
      cases site <;> exact inTime
  | timeout rc pc =>
      rename_i site minComplete submitted deadline expired result
      rw [pc] at inTime
      cases site <;> exact inTime
  | signal rc pc =>
      rename_i site minComplete submitted deadline result
      rw [pc] at inTime
      cases site <;> exact inTime
  | complete pc =>
      rw [pc] at inTime
      exact inTime
  | _ => trivial

/-- Where the condition is used again: at the exit of the loop. -/
theorem RunStep.inTime (step : RunStep config s label next)
    (condition : StopsInTime config s label) (inTime : InTime config s) :
    InTime config next := by
  unfold InTime at inTime
  cases step with
  | stay pc => trivial
  | exit pc => exact condition.left rfl
  | again pc => trivial
  | close pc =>
      rw [pc] at inTime
      exact inTime
  | closeRetry => exact inTime
  | closed pc =>
      rw [pc] at inTime
      exact inTime

theorem CallStep.inTime (step : CallStep config s label next) (inTime : InTime config s) :
    InTime config next := by
  unfold InTime at inTime ⊢
  cases step with
  | rejectTimer i kind pc =>
      rename_i queue op dr
      have same : normalTasks (s.log.handled ++ [(op, .rejected)]) =
          normalTasks s.log.handled := by
        rw [normalTasks_concat, if_neg nofun, List.append_nil]
      show LoopPc.InTime config.timer (normalTasks (s.log.handled ++ [(op, .rejected)])) _ _ _
      rw [same]
      exact inTime
  | _ => exact inTime

theorem Step.inTime (step : Step config s label next) (condition : StopsInTime config s label)
    (inTime : InTime config s) : InTime config next := by
  cases step with
  | accept step => exact step.inTime inTime
  | complete step => exact step.inTime inTime
  | submit step => exact step.inTime condition inTime
  | timer step => exact step.inTime inTime
  | enter step => exact step.inTime inTime
  | run step => exact step.inTime condition inTime
  | call step => exact step.inTime inTime
  | kernel step => cases step <;> exact inTime

theorem reachable_inTime (reachable : ((system config).restrict (StopsInTime config)).Reachable s) :
    InTime config s := by
  apply reachable.invariant (InTime config)
  · intro state start
    rcases start with ⟨now, pending, rfl⟩
    trivial
  · intro state label next _ inTime step
    exact Step.inTime step.2 step.1 inTime

/-- When `__tmp` and `__dr_pending_` are empty, every accepted timer that is not
in the heap is completed. -/
theorem TimerBook.settled (book : TimerBook config s) (batch : s.loop.pc.batch = [])
    (pending : s.loop.drPending = []) {t : Addr} (schedule : (config.timer t).isSchedule = true)
    (removed : t ∉ s.loop.heap) : s.log.accepted.count t ≤ s.log.completed.count t := by
  have promised := loopTasks_count_le s.log.handled schedule
  have absent : t ∉ scheduled config.timer (normalTasks s.log.handled) :=
    fun member => removed (book.heap.mem_iff.mpr member)
  rw [List.count_eq_zero_of_not_mem absent] at promised
  rw [book.accepted, batch, pending, List.append_nil, List.append_nil, book.completed]
  exact promised

/-- In every run whose steps meet the condition, timers make progress. -/
theorem timersProgress_of_stopsInTime (config : Config) (s : State)
    (reachable : ((system config).restrict (StopsInTime config)).Reachable s) :
    TimersProgress config s := by
  have inTime : s.loop.pc.InTime config.timer (normalTasks s.log.handled) s.loop.drPending
    s.log.passStart := reachable_inTime reachable
  have book := reachable_timerBook reachable.of_restrict
  constructor
  · intro pc t member
    rw [pc] at inTime
    exact inTime.2 t (book.heap.mem_iff.mp member)
  · intro pc t key command due
    rw [pc] at inTime
    have removed : t ∉ s.loop.heap := by
      intro member
      have later := inTime.2 t (book.heap.mem_iff.mp member)
      rw [command] at later
      exact Int.not_le.mpr later due
    exact book.settled (by rw [pc]; rfl) inTime.1 (by rw [command]; rfl) removed
  · intro m pc
    rw [pc] at inTime
    have heap : s.loop.heap = [] := (inTime.2 ▸ book.heap).eq_nil
    refine ⟨heap, inTime.1, ?_⟩
    intro t schedule
    apply book.settled (by rw [pc]; rfl) inTime.1 schedule
    rw [heap]
    exact List.not_mem_nil

/-- The end of a run of the small scheduler with nothing in flight. -/
theorem end_idle {Condition : State → Label → Prop} (quiet : ∀ s, Condition s .tau)
    (final : ∀ s stop cur max r, s.loop.pc = .submit .final stop cur max r →
      Condition s .submitted)
    (woken : ∀ s, Condition s .wake) {shared : Shared} {call : Nat → Call} {heap : List Addr}
    {now : Int} {log : Log} (unused : shared.nSubmitInFlight = 0)
    (empty : ∀ queue, shared.head queue = none)
    (reachable : ((system small).restrict Condition).Reachable {
      shared := shared, call := call, kernel := { now := now }, log := log
      loop := { pc := .close, heap := heap } }) :
    ((system small).restrict Condition).Reachable {
      shared := { shared with nSubmitInFlight := noNewSubmit }
      call := call
      kernel := { now := now }
      loop := { pc := .finished 0, heap := heap }
      log := { log with accepts := log.accepts + 1, entered := some 0 } } := by
  have closed := reachable.step ⟨quiet _, .run (.close rfl unused)⟩
  have accepted := accept_empty quiet (accept_empty quiet closed rfl (empty 0)) rfl (empty 1)
  have stopping := accepted.step ⟨quiet _, .accept (.doneFinal rfl)⟩
  have submitting := stopping.step ⟨quiet _, .submit (.begin rfl)⟩
  have added := submitting.step ⟨final _ _ _ _ _ rfl, .submit (.done rfl (.inl rfl))⟩
  have entering := added.step ⟨quiet _, .timer (.doneFinal rfl)⟩
  have waiting := entering.step ⟨quiet _, .enter (.consume rfl (Nat.le_refl 0))⟩
  have ready := waiting.step ⟨woken _, .enter (.ready rfl (Nat.le_refl 0))⟩
  have completing := ready.step ⟨quiet _, .enter (.complete rfl fun fatal =>
    Int.not_lt.mpr (Int.natCast_nonneg _) fatal.1)⟩
  have finished := completing.step ⟨quiet _, .complete (.doneFinal rfl rfl)⟩
  exact finished

/-- A timer and a task that stops it are handled in the first pass, before the
deadline; the scheduler ends with nothing left. -/
theorem timersProgress_stopped :
    ∃ s, s.loop.pc = .finished 0 ∧ s.log.accepted = [8, 9] ∧ s.log.completed = [8] ∧
      TimersProgress small s := by
  have quiet : ∀ s, StopsInTime small s .tau := fun _ => ⟨nofun, nofun⟩
  have handles : ∀ s pushes, StopsInTime small s (.timer pushes) := fun _ _ => ⟨nofun, nofun⟩
  have woken : ∀ s, StopsInTime small s .wake := fun _ => ⟨nofun, nofun⟩
  have final : ∀ s stop cur max r, s.loop.pc = .submit .final stop cur max r →
      StopsInTime small s .submitted := by
    intro s stop cur max r pc
    exact ⟨fun _ _ _ _ _ loop => absurd (pc.symm.trans loop) nofun, nofun⟩
  have leave : ∀ s, scheduled small.timer (normalTasks s.log.handled) = [] →
      StopsInTime small s .exit := fun _ none => ⟨nofun, fun _ => none⟩
  have stopped : scheduled small.timer [8, 9] = [] := by decide
  have due : ∀ s max, s.loop.pc = .submit .loop false false max 0 → s.log.handled = [] →
      s.loop.drPending = [8, 9] → StopsInTime small s .submitted := by
    intro s max pc handled pending
    refine ⟨?_, nofun⟩
    intro _ stop cur limit r also
    have mode : false = stop := (LoopPc.submit.inj (pc.symm.trans also)).2.1
    rw [handled, pending, ← mode]
    show ∀ t ∈ scheduled small.timer [8, 9], _
    rw [stopped]
    nofun
  rcases two_accepted (StopsInTime small) quiet 8 9 (by decide) with
    ⟨shared, call, unused, _, going, empty, _, start⟩
  rcases pass_begun quiet start with ⟨max, begun⟩
  rw [going] at begun
  have added := begun.step ⟨due _ max rfl rfl rfl, .submit (.done rfl (.inl rfl))⟩
  have scheduling := added.step ⟨handles _ _, .timer (.schedule rfl rfl)⟩
  have stopping := scheduling.step ⟨handles _ _, .timer (.stop [] rfl rfl)⟩
  have tested := stopping.step ⟨quiet _, .timer (.doneLoop rfl)⟩
  have left := tested.step ⟨leave _ stopped, .run (.exit rfl (.inl rfl))⟩
  have finished := end_idle quiet final woken unused empty left
  exact ⟨_, rfl, rfl, rfl, timersProgress_of_stopsInTime small _ finished⟩

/-- A timer that nobody stops: the pass that begins after its deadline leaves it
in the heap, and so does the scheduler when it ends. -/
theorem timer_never_fires :
    (∃ s, (system small).Reachable s ∧ s.loop.pc = .exitTest ∧ s.log.passStart = 6 ∧
      s.loop.heap = [8] ∧ (small.timer 8).key.deadline = 5 ∧ ¬ TimersProgress small s) ∧
    (∃ s, (system small).Reachable s ∧ s.loop.pc = .finished 0 ∧ s.loop.heap = [8] ∧
      s.log.accepted = [8] ∧ s.log.completed = [] ∧ ¬ TimersProgress small s) := by
  have quiet := lenient_true.quiet
  have start : ((system small).restrict fun _ _ => True).Reachable (initial small 0 []) :=
    .init ⟨0, [], rfl⟩
  have nobody : ∀ j, ((initial small 0 []).call j).holding ≠ some 8 := fun _ => nofun
  have one := submit_remote quiet 0 1 8 start rfl (by decide) nobody rfl nofun
  have visited := accept_empty quiet one rfl rfl
  rcases accept_take quiet visited rfl [8] ⟨rfl, rfl⟩ with ⟨links, taken⟩
  have later : (0 : Int) ≤ 6 := by decide
  have late := taken.step ⟨trivial, .kernel (.tick 6 later)⟩
  rcases pass_begun quiet late with ⟨max, begun⟩
  have added := begun.step ⟨trivial, .submit (.done rfl (.inl rfl))⟩
  have scheduling := added.step ⟨trivial, .timer (.schedule rfl rfl)⟩
  have tested := scheduling.step ⟨trivial, .timer (.doneLoop rfl)⟩
  have left := tested.step ⟨trivial, .run (.exit rfl (.inl rfl))⟩
  have empty : ∀ queue, Function.update (Function.update (fun _ => none) 1 (some 8)) 1 none queue =
      (none : Option Addr) := by
    intro queue
    rw [Function.update_idem]
    exact congrFun (Function.update_eq_self 1 (fun _ => none)) queue
  have finished := end_idle quiet (fun _ _ _ _ _ _ => trivial) (fun _ => trivial) rfl empty left
  refine ⟨⟨_, tested.of_restrict, rfl, rfl, rfl, rfl, ?_⟩,
    ⟨_, finished.of_restrict, rfl, rfl, rfl, rfl, ?_⟩⟩
  · intro progress
    have notDue : (6 : Int) < 5 := progress.pass rfl 8 (List.mem_singleton_self 8)
    exact absurd notDue (by decide)
  · intro progress
    have nothing := (progress.finished 0 rfl).1
    exact absurd nothing (List.cons_ne_nil 8 [])

end Steps

end NgrCore.Scheduler
