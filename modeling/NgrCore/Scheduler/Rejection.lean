import NgrCore.Scheduler.State

/-!
Owns one call of the remote `_M_submit` on a scheduler that accepts no submissions any
more: the operation is not pushed, and `__manual_stop` is what completes it.

Proves that a timer task is completed and that an io operation is not, because its
`__n_ops_` was never set.
-/

namespace NgrCore.Scheduler.Rejection

open NgrCore.Library

/-- What is passed to the remote `_M_submit`: an `__ioring_task` or a
`__timer_task_base`. -/
inductive Operation
  | io (op : Addr)
  | timer (op : Addr)
deriving Repr, DecidableEq

def Operation.addr : Operation → Addr
  | .io op | .timer op => op

/-- Where the call stands. -/
inductive Pc
  | reserve (n : Int)
  | push
  | release
  | notify
  | returned
  | rejected
deriving Repr, DecidableEq

/-- `__n_submit_in_flight_`, the operations on the remote queue, the io operations, and
the timers whose `__complete_` this call has called with the flag it passed. -/
structure State where
  nSubmitInFlight : Int
  request : List Addr
  task : Addr → IoringTask
  timersCompleted : List (Addr × Bool) := []
  pc : Pc := .reserve 0

section Call

variable (timer : Addr → TimerTask) (operation : Operation)

/-- `__manual_stop`, of either kind. -/
def manualStop (s : State) : State :=
  match operation with
  | .io op => { s with task := Function.update s.task op (IoringTask.manualStop op (s.task op)) }
  | .timer op => { s with timersCompleted := s.timersCompleted ++ [(subject timer op, true)] }

/-- The calls of the operation's completion function so far. -/
def completions (s : State) : List Cqe × List (Addr × Bool) :=
  match operation with
  | .io op => ((s.task op).completed, [])
  | .timer _ => ([], s.timersCompleted)

/-- The one call that a cancelled operation gets. -/
def cancelled : List Cqe × List (Addr × Bool) :=
  match operation with
  | .io op => ([⟨op, -ECANCELED, 0⟩], [])
  | .timer op => ([], [(subject timer op, true)])

/-- The steps of the call, labelled `true`, and those of everybody else, who neither
submits nor completes this operation and cannot open a closed scheduler. -/
inductive Step (s : State) : Bool → State → Prop
  | reserve {n : Int} (pc : s.pc = .reserve n) (stillOpen : n ≠ noNewSubmit)
      (unchanged : s.nSubmitInFlight = n) :
      Step s true { s with nSubmitInFlight := n + 1, pc := .push }
  | retry {n : Int} (pc : s.pc = .reserve n) (stillOpen : n ≠ noNewSubmit) :
      Step s true { s with pc := .reserve s.nSubmitInFlight }
  | reject (pc : s.pc = .reserve noNewSubmit) :
      Step s true { manualStop timer operation s with pc := .rejected }
  | push (pc : s.pc = .push) :
      Step s true { s with request := operation.addr :: s.request, pc := .release }
  | release (pc : s.pc = .release) :
      Step s true { s with nSubmitInFlight := s.nSubmitInFlight - 1, pc := .notify }
  | notify (pc : s.pc = .notify) : Step s true { s with pc := .returned }
  | environment {nSubmitInFlight : Int} {request : List Addr} {task : Addr → IoringTask}
      (closed : s.nSubmitInFlight = noNewSubmit → nSubmitInFlight = noNewSubmit)
      (others : operation.addr ∈ request → operation.addr ∈ s.request)
      (own : task operation.addr = s.task operation.addr) :
      Step s false { s with nSubmitInFlight, request, task }

/-- The call that begins in `start`; its label says whether a step is one of its own. -/
def system (start : State) : System State Bool where
  Init s := s = start
  Step := Step timer operation

/-- A bound on the steps the call itself still takes once the counter is closed. -/
def remaining (s : State) : Nat :=
  match s.pc with
  | .reserve n => if n = noNewSubmit then 1 else 2
  | _ => 0

/-- What a rejected operation is promised in every state of the call. -/
structure RejectedOnce (start s : State) : Prop where
  unpushed : operation.addr ∈ s.request → operation.addr ∈ start.request
  before : s.pc ≠ .rejected → completions operation s = completions operation start
  once : s.pc = .rejected → completions operation s =
    ((completions operation start).1 ++ (cancelled timer operation).1,
      (completions operation start).2 ++ (cancelled timer operation).2)
  moves : s.pc ≠ .rejected → ∃ next, Step timer operation s true next
  bounded : ∀ next, Step timer operation s true next → remaining next < remaining s

/-- `__manual_stop` of the operation calls its completion function. -/
def Stoppable (start : State) : Prop :=
  match operation with
  | .io op => (start.task op).nOps = 1
  | .timer _ => True

/-- The scheduler is closed, and the call is about to begin. -/
structure Start (start : State) : Prop where
  pc : start.pc = .reserve 0
  closed : start.nSubmitInFlight = noNewSubmit

variable {timer operation} {start s next : State}

/-- The call stands before or behind `__manual_stop`, and nothing else touched its
operation. -/
structure Inv (timer : Addr → TimerTask) (operation : Operation) (start s : State) : Prop where
  closed : s.nSubmitInFlight = noNewSubmit
  unpushed : operation.addr ∈ s.request → operation.addr ∈ start.request
  place : (∃ n, s.pc = .reserve n ∧ (n = 0 ∨ n = noNewSubmit) ∧
      s.task operation.addr = start.task operation.addr ∧
      s.timersCompleted = start.timersCompleted) ∨
    (s.pc = .rejected ∧ s.task operation.addr =
        (manualStop timer operation start).task operation.addr ∧
      s.timersCompleted = (manualStop timer operation start).timersCompleted)

theorem inv_start (begins : Start start) : Inv timer operation start start :=
  ⟨begins.closed, id, .inl ⟨0, begins.pc, .inl rfl, rfl, rfl⟩⟩

/-- The result depends on the operation's own data only. -/
theorem manualStop_congr (task : s.task operation.addr = start.task operation.addr)
    (completed : s.timersCompleted = start.timersCompleted) :
    (manualStop timer operation s).task operation.addr =
        (manualStop timer operation start).task operation.addr ∧
      (manualStop timer operation s).timersCompleted =
        (manualStop timer operation start).timersCompleted := by
  cases operation with
  | io op =>
      change s.task op = start.task op at task
      simp [manualStop, Operation.addr, task, completed]
  | timer op => simp [manualStop, task, completed]

theorem completions_congr (task : s.task operation.addr = start.task operation.addr)
    (completed : s.timersCompleted = start.timersCompleted) :
    completions operation s = completions operation start := by
  cases operation with
  | io op =>
      change s.task op = start.task op at task
      simp [completions, task]
  | timer op => simp [completions, completed]

theorem manualStop_nSubmitInFlight (s : State) :
    (manualStop timer operation s).nSubmitInFlight = s.nSubmitInFlight := by
  cases operation <;> rfl

theorem manualStop_request (s : State) : (manualStop timer operation s).request = s.request := by
  cases operation <;> rfl

theorem Inv.step (inv : Inv timer operation start s) {own : Bool}
    (step : Step timer operation s own next) : Inv timer operation start next := by
  obtain ⟨closed, unpushed, place⟩ := inv
  have waits (pc : ∀ n, s.pc ≠ .reserve n) (other : s.pc ≠ .rejected) : False := by
    rcases place with ⟨n, here, _⟩ | ⟨here, _⟩
    · exact pc n here
    · exact other here
  cases step with
  | reserve pc stillOpen unchanged => exact absurd (unchanged.symm.trans closed) stillOpen
  | retry pc stillOpen =>
      refine ⟨closed, unpushed, .inl ⟨_, rfl, .inr closed, ?_⟩⟩
      rcases place with ⟨_, _, _, same⟩ | ⟨here, _⟩
      · exact same
      · exact absurd (pc.symm.trans here) nofun
  | reject pc =>
      refine ⟨(manualStop_nSubmitInFlight s).trans closed,
        (manualStop_request s).symm ▸ unpushed, .inr ⟨rfl, ?_⟩⟩
      rcases place with ⟨_, _, _, task, completed⟩ | ⟨here, _⟩
      · exact manualStop_congr task completed
      · exact absurd (pc.symm.trans here) nofun
  | push pc => exact (waits (pc ▸ nofun) (pc ▸ nofun)).elim
  | release pc => exact (waits (pc ▸ nofun) (pc ▸ nofun)).elim
  | notify pc => exact (waits (pc ▸ nofun) (pc ▸ nofun)).elim
  | environment stays others own =>
      refine ⟨stays closed, fun member => unpushed (others member), ?_⟩
      rcases place with ⟨n, here, value, task, completed⟩ | ⟨here, task, completed⟩
      · exact .inl ⟨n, here, value, own.trans task, completed⟩
      · exact .inr ⟨here, own.trans task, completed⟩

theorem inv_of_reachable (begins : Start start)
    (reachable : (system timer operation start).Reachable s) : Inv timer operation start s := by
  apply reachable.invariant (Inv timer operation start)
  · rintro _ rfl
    exact inv_start begins
  · intro state label next _ inv step
    exact inv.step step

theorem completions_manualStop (stoppable : Stoppable operation start) :
    completions operation (manualStop timer operation start) =
      ((completions operation start).1 ++ (cancelled timer operation).1,
        (completions operation start).2 ++ (cancelled timer operation).2) := by
  cases operation with
  | io op =>
      have single : (start.task op).nOps = 1 := stoppable
      simp [completions, manualStop, cancelled, IoringTask.manualStop_eq, single]
  | timer op => simp [completions, manualStop, cancelled]

/-- The counter of an operation that is not in flight only goes down. -/
theorem completions_manualStop_io (timer : Addr → TimerTask) (start : State) {op : Addr}
    (idle : (start.task op).nOps ≠ 1) :
    completions (.io op) (manualStop timer (.io op) start) = completions (.io op) start := by
  simp [completions, manualStop, IoringTask.manualStop_eq, idle]

theorem Inv.rejectedOnce (inv : Inv timer operation start s)
    (stoppable : Stoppable operation start) : RejectedOnce timer operation start s := by
  obtain ⟨closed, unpushed, place⟩ := inv
  refine ⟨unpushed, ?_, ?_, ?_, ?_⟩
  · intro waiting
    rcases place with ⟨_, _, _, task, completed⟩ | ⟨here, _⟩
    · exact completions_congr task completed
    · exact absurd here waiting
  · intro rejected
    rcases place with ⟨n, here, _⟩ | ⟨_, task, completed⟩
    · exact absurd (here.symm.trans rejected) nofun
    · exact (completions_congr task completed).trans (completions_manualStop stoppable)
  · intro waiting
    rcases place with ⟨n, here, _⟩ | ⟨here, _⟩
    · by_cases last : n = noNewSubmit
      · exact ⟨_, .reject (last ▸ here)⟩
      · exact ⟨_, .retry here last⟩
    · exact absurd here waiting
  · intro next step
    rcases place with ⟨n, here, value, _⟩ | ⟨here, _⟩
    · cases step with
      | reserve pc stillOpen unchanged => exact absurd (unchanged.symm.trans closed) stillOpen
      | @retry m pc stillOpen => simp [remaining, pc, closed, stillOpen]
      | reject pc => simp [remaining, pc]
      | push pc => exact absurd (pc.symm.trans here) nofun
      | release pc => exact absurd (pc.symm.trans here) nofun
      | notify pc => exact absurd (pc.symm.trans here) nofun
    · cases step with
      | reserve pc stillOpen unchanged => exact absurd (pc.symm.trans here) nofun
      | retry pc stillOpen => exact absurd (pc.symm.trans here) nofun
      | reject pc => exact absurd (pc.symm.trans here) nofun
      | push pc => exact absurd (pc.symm.trans here) nofun
      | release pc => exact absurd (pc.symm.trans here) nofun
      | notify pc => exact absurd (pc.symm.trans here) nofun

/-- Two steps of the call alone lead to its end. -/
theorem reachable_rejected (begins : Start start) :
    (system timer operation start).Reachable
      { manualStop timer operation { start with pc := .reserve start.nSubmitInFlight } with
        pc := .rejected } := by
  have first : (system timer operation start).Reachable start := .init rfl
  have retried := first.step (.retry begins.pc (by decide))
  exact retried.step (.reject (congrArg Pc.reserve begins.closed))

/-- A rejected operation is completed exactly once, and cancelled, exactly when it is a
timer task or its counter says that it is in flight. -/
theorem rejectedOnce_iff (begins : Start start) :
    (∀ s, (system timer operation start).Reachable s → RejectedOnce timer operation start s) ↔
      Stoppable operation start := by
  constructor
  · intro every
    cases operation with
    | timer op => trivial
    | io op =>
        by_contra idle
        have once := (every _ (reachable_rejected begins)).once rfl
        have stopped := completions_manualStop_io timer
          { start with pc := .reserve start.nSubmitInFlight } idle
        have lost : (completions (.io op) start).1 =
            (completions (.io op) start).1 ++ (cancelled timer (.io op)).1 :=
          congrArg Prod.fst (stopped.symm.trans once)
        exact absurd lost (by simp [cancelled])
  · intro stoppable s reachable
    exact (inv_of_reachable begins reachable).rejectedOnce stoppable

/-- A timer is rejected. -/
theorem rejectedOnce_timer : ∃ start s : State,
    (system (fun _ => .schedule {}) (.timer 7) start).Reachable s ∧ s.pc = .rejected ∧
    s.timersCompleted = [(7, true)] ∧ RejectedOnce (fun _ => .schedule {}) (.timer 7) start s := by
  let start : State := { nSubmitInFlight := noNewSubmit, request := [], task := fun _ => {} }
  have begins : Start start := ⟨rfl, rfl⟩
  have stoppable : Stoppable (.timer 7) start := trivial
  exact ⟨start, _, reachable_rejected begins, rfl, rfl,
    (rejectedOnce_iff begins).mpr stoppable _ (reachable_rejected begins)⟩

/-- A fresh io operation is rejected: its counter goes from 0 to -1 and nobody is
called. -/
theorem fresh_operation_lost :
    ¬ ∀ s, (system (fun _ => .schedule {}) (.io 7)
      { nSubmitInFlight := noNewSubmit, request := [], task := fun _ => {} }).Reachable s →
      RejectedOnce (fun _ => .schedule {}) (.io 7)
        { nSubmitInFlight := noNewSubmit, request := [], task := fun _ => {} } s := by
  intro every
  have once := (every _ (reachable_rejected ⟨rfl, rfl⟩)).once rfl
  revert once
  decide

end Call

end NgrCore.Scheduler.Rejection
