import NgrCore.IoringTask
import NgrCore.Library.Transition
import Mathlib.Data.List.Basic

/-!
Owns the callback of `__task_facade`: `__register`, the thread-local `__callback_` and
`__arg_`, and the end of `_M_do_execute`, which calls what a coroutine has registered once it
has suspended. Executions nest: a coroutine or a callback may execute other facades.

Proves that no callback runs twice or with another argument, and that none is lost, and each
runs after the coroutine that registered it, where a coroutine registers one as the last thing
before it suspends.
-/

namespace NgrCore.TaskFacade

open NgrCore.Library

/-- A function and the argument it is registered with. -/
structure Callback where
  function : Nat
  arg : Addr
deriving Repr, DecidableEq

/-- What runs: a coroutine that `_M_do_execute` has resumed, or a callback. Its number tells it
from every other. -/
structure Frame where
  number : Nat
  callback : Option Callback := none
deriving Repr, DecidableEq

/-- A thread: what runs, innermost first, `__callback_` and `__arg_`. For the proofs only: the
number of frames so far, the callbacks registered and by which frame, and those that ran. -/
structure Machine where
  stack : List Frame := []
  callback : Option Nat := none
  arg : Addr := 0
  frames : Nat := 0
  registered : List (Callback × Nat) := []
  ran : List Callback := []
deriving Repr, DecidableEq

/-- What the innermost frame does: executes a facade, registers a callback, suspends or ends.
With no frame, the thread executes a facade. -/
inductive Event
  | execute
  | register (callback : Callback)
  | suspend
  | finish
deriving Repr, DecidableEq

namespace Machine

/-- The callback that waits for the end of an execution. -/
def waiting (m : Machine) : List Callback :=
  (m.callback.map fun function => { function, arg := m.arg }).toList

/-- `_M_do_execute` up to `__coro_resume`. -/
def execute (m : Machine) : Machine :=
  { m with stack := { number := m.frames } :: m.stack, frames := m.frames + 1 }

def register (m : Machine) (callback : Callback) (frame : Frame) : Machine :=
  { m with
    callback := some callback.function
    arg := callback.arg
    registered := m.registered ++ [(callback, frame.number)] }

/-- The rest of `_M_do_execute`: `__callback_` is cleared before it is called. -/
def suspend (m : Machine) (outer : List Frame) : Machine :=
  match m.callback with
  | none => { m with stack := outer }
  | some function =>
      { m with
        stack := { number := m.frames, callback := some { function, arg := m.arg } } :: outer
        callback := none
        frames := m.frames + 1
        ran := m.ran ++ [{ function, arg := m.arg }] }

end Machine

/-- The steps of a thread whose coroutines and callbacks do anything in any order. -/
inductive Step (m : Machine) : Event → Machine → Prop
  | execute : Step m .execute m.execute
  | register {frame : Frame} {outer : List Frame} (callback : Callback)
      (runs : m.stack = frame :: outer) : Step m (.register callback) (m.register callback frame)
  | suspend {frame : Frame} {outer : List Frame} (runs : m.stack = frame :: outer)
      (coroutine : frame.callback = none) : Step m .suspend (m.suspend outer)
  | finish {frame : Frame} {outer : List Frame} {callback : Callback}
      (runs : m.stack = frame :: outer) (called : frame.callback = some callback) :
      Step m .finish { m with stack := outer }

def system : System Machine Event where
  Init m := m = {}
  Step := Step

/-- A coroutine registers at most one callback, and suspends after that. -/
def RegistersLast (m : Machine) : Event → Prop
  | .register _ => m.callback = none ∧ ∀ frame ∈ m.stack.head?, frame.callback = none
  | .execute | .finish => m.callback = none
  | .suspend => True

/-- The callbacks of the frames that a step pushes: those with a number of their own. -/
def called (ran : List Callback) (m : Machine) (_ : Event) (next : Machine) : List Callback :=
  ran ++ next.stack.filterMap fun frame => if m.frames ≤ frame.number then frame.callback else none

/-! ### Every run -/

/-- What runs and what waits, in the order of the registrations. -/
structure InOrder (m : Machine) : Prop where
  sublist : (m.ran ++ m.waiting).Sublist (m.registered.map Prod.fst)
  calls : ∀ frame ∈ m.stack, ∀ callback, frame.callback = some callback → callback ∈ m.ran

section Runs

variable {m next : Machine} {event : Event}

theorem waiting_none (empty : m.callback = none) : m.waiting = [] := by
  rw [Machine.waiting, empty]
  rfl

theorem waiting_some {function : Nat} (here : m.callback = some function) :
    m.waiting = [{ function, arg := m.arg }] := by
  rw [Machine.waiting, here]
  rfl

theorem suspend_none (waits : m.callback = none) (outer : List Frame) :
    m.suspend outer = { m with stack := outer } := by
  rw [Machine.suspend, waits]

theorem suspend_some {function : Nat} (waits : m.callback = some function) (outer : List Frame) :
    m.suspend outer =
      { m with
        stack := { number := m.frames, callback := some { function, arg := m.arg } } :: outer
        callback := none
        frames := m.frames + 1
        ran := m.ran ++ [{ function, arg := m.arg }] } := by
  rw [Machine.suspend, waits]

theorem called_old {frames : List Frame} {bound : Nat}
    (old : ∀ frame ∈ frames, frame.number < bound) :
    frames.filterMap (fun frame => if bound ≤ frame.number then frame.callback else none) = [] := by
  apply List.filterMap_eq_nil_iff.mpr
  intro frame member
  exact if_neg (Nat.not_le_of_lt (old frame member))

theorem Step.numbers (step : Step m event next)
    (numbers : ∀ frame ∈ m.stack, frame.number < m.frames) :
    (∀ frame ∈ next.stack, frame.number < next.frames) ∧
      next.ran = called m.ran m event next := by
  have push : ∀ (callback : Option Callback) (rest : List Frame),
      (∀ frame ∈ rest, frame.number < m.frames) →
      ∀ frame ∈ (⟨m.frames, callback⟩ : Frame) :: rest, frame.number < m.frames + 1 := by
    intro callback rest old frame member
    rcases List.mem_cons.mp member with mine | earlier
    · rw [mine]
      exact Nat.lt_succ_self _
    · exact Nat.lt_succ_of_lt (old frame earlier)
  have shrink {frame : Frame} {outer : List Frame} (runs : m.stack = frame :: outer) :
      ∀ other ∈ outer, other.number < m.frames := by
    intro other member
    apply numbers
    rw [runs]
    exact List.mem_cons_of_mem frame member
  cases step with
  | execute =>
      refine ⟨push none m.stack numbers, ?_⟩
      simp [called, Machine.execute, called_old numbers]
  | register callback runs =>
      refine ⟨numbers, ?_⟩
      simp [called, Machine.register, called_old numbers]
  | @suspend frame outer runs coroutine =>
      have old := shrink runs
      cases waits : m.callback with
      | none =>
          rw [suspend_none waits]
          exact ⟨old, by simp [called, called_old old]⟩
      | some function =>
          rw [suspend_some waits]
          exact ⟨push _ outer old, by simp [called, called_old old]⟩
  | finish runs ended =>
      have old := shrink runs
      exact ⟨old, by simp [called, called_old old]⟩

theorem ran_reachable {run : Machine × List Callback}
    (reachable : (system.watch [] called).Reachable run) : run.1.ran = run.2 := by
  have both : (∀ frame ∈ run.1.stack, frame.number < run.1.frames) ∧ run.1.ran = run.2 := by
    induction reachable with
    | init start =>
        obtain ⟨start, empty⟩ := start
        rw [start, empty]
        exact ⟨nofun, rfl⟩
    | step _ step inductionHypothesis =>
        obtain ⟨step, noted⟩ := step
        obtain ⟨numbers, same⟩ := inductionHypothesis
        obtain ⟨kept, ran⟩ := step.numbers numbers
        rw [noted, ← same]
        exact ⟨kept, ran⟩
  exact both.2

theorem InOrder.register (ordered : InOrder m) (callback : Callback) (frame : Frame) :
    InOrder (m.register callback frame) where
  sublist := by
    have ran : m.ran.Sublist (m.registered.map Prod.fst) :=
      (List.sublist_append_left m.ran m.waiting).trans ordered.sublist
    show (m.ran ++ [callback]).Sublist _
    rw [Machine.register, List.map_append]
    exact ran.append (List.Sublist.refl _)
  calls := ordered.calls

theorem InOrder.suspend (ordered : InOrder m) {frame : Frame} {outer : List Frame}
    (runs : m.stack = frame :: outer) : InOrder (m.suspend outer) := by
  have fewer : ∀ other ∈ outer, ∀ callback, other.callback = some callback → callback ∈ m.ran := by
    intro other member
    apply ordered.calls
    rw [runs]
    exact List.mem_cons_of_mem frame member
  cases waits : m.callback with
  | none =>
      rw [suspend_none waits]
      exact ⟨ordered.sublist, fewer⟩
  | some function =>
      rw [suspend_some waits]
      constructor
      · have sublist := ordered.sublist
        rw [waiting_some waits] at sublist
        rw [waiting_none rfl, List.append_nil]
        exact sublist
      · intro other member callback called
        rcases List.mem_cons.mp member with mine | old
        · subst mine
          cases called
          exact List.mem_append_right _ (List.mem_singleton_self _)
        · exact List.mem_append_left _ (fewer other old callback called)

theorem Step.inOrder (step : Step m event next) (ordered : InOrder m) : InOrder next := by
  cases step with
  | execute =>
      refine ⟨ordered.sublist, ?_⟩
      intro other member callback called
      rcases List.mem_cons.mp member with mine | old
      · subst mine
        cases called
      · exact ordered.calls other old callback called
  | register callback runs => exact ordered.register callback _
  | suspend runs coroutine => exact ordered.suspend runs
  | finish runs called =>
      refine ⟨ordered.sublist, ?_⟩
      intro other member
      apply ordered.calls
      rw [runs]
      exact List.mem_cons_of_mem _ member

theorem inOrder_reachable (reachable : system.Reachable m) : InOrder m := by
  induction reachable with
  | init start =>
      cases start
      exact ⟨List.Sublist.refl _, nofun⟩
  | step _ step inductionHypothesis => exact step.inOrder inductionHypothesis

end Runs

/-! ### Runs that register last -/

/-- Nothing is lost: what is registered ran or waits, and what waits was registered by the
frame that is about to suspend; every callback that runs was registered by a frame that has
suspended. -/
structure Punctual (m : Machine) : Prop where
  complete : m.registered.map Prod.fst = m.ran ++ m.waiting
  numbers : ∀ frame ∈ m.stack, frame.number < m.frames
  distinct : (m.stack.map Frame.number).Nodup
  registrant : m.callback ≠ none → ∃ frame outer, m.stack = frame :: outer ∧
    frame.callback = none ∧ (m.registered.getLast?).map Prod.snd = some frame.number
  suspended : ∀ registration ∈ m.registered.take m.ran.length,
    registration.2 < m.frames ∧ registration.2 ∉ m.stack.map Frame.number

section Punctual

variable {m next : Machine} {event : Event}

/-- While nothing waits, all that is registered ran. -/
theorem Punctual.length_ran (punctual : Punctual m) (empty : m.callback = none) :
    m.registered.length = m.ran.length := by
  have complete := congrArg List.length punctual.complete
  rw [waiting_none empty, List.append_nil, List.length_map] at complete
  exact complete

theorem Punctual.leave (punctual : Punctual m) (empty : m.callback = none) {frame : Frame}
    {outer : List Frame} (runs : m.stack = frame :: outer) :
    Punctual { m with stack := outer } := by
  have numbers := punctual.numbers
  have distinct := punctual.distinct
  have suspended := punctual.suspended
  rw [runs] at numbers distinct suspended
  refine ⟨punctual.complete, ?_, (List.nodup_cons.mp distinct).2, fun waits => ?_, ?_⟩
  · intro other member
    exact numbers other (List.mem_cons_of_mem frame member)
  · exact absurd empty waits
  · intro registration member
    obtain ⟨earlier, absent⟩ := suspended registration member
    exact ⟨earlier, fun inside => absent (List.mem_cons_of_mem _ inside)⟩

theorem Punctual.execute (punctual : Punctual m) (empty : m.callback = none) :
    Punctual m.execute := by
  refine ⟨punctual.complete, ?_, ?_, fun waits => absurd empty waits, ?_⟩
  · exact (Step.execute.numbers punctual.numbers).1
  · refine List.nodup_cons.mpr ⟨?_, punctual.distinct⟩
    intro member
    obtain ⟨other, old, same⟩ := List.mem_map.mp member
    exact absurd same (Nat.ne_of_lt (punctual.numbers other old))
  · intro registration member
    obtain ⟨earlier, absent⟩ := punctual.suspended registration member
    refine ⟨Nat.lt_succ_of_lt earlier, ?_⟩
    intro inside
    rcases List.mem_cons.mp inside with mine | old
    · exact absurd mine (Nat.ne_of_lt earlier)
    · exact absent old

theorem Punctual.register (punctual : Punctual m) (empty : m.callback = none)
    (callback : Callback) {frame : Frame} {outer : List Frame} (runs : m.stack = frame :: outer)
    (coroutine : frame.callback = none) : Punctual (m.register callback frame) := by
  have complete := punctual.complete
  rw [waiting_none empty, List.append_nil] at complete
  have before := punctual.length_ran empty
  refine ⟨?_, punctual.numbers, punctual.distinct, fun _ => ?_, ?_⟩
  · show (m.registered ++ [(callback, frame.number)]).map Prod.fst = m.ran ++ [callback]
    rw [List.map_append, complete]
    rfl
  · refine ⟨frame, outer, runs, coroutine, ?_⟩
    simp [Machine.register]
  · intro registration member
    apply punctual.suspended registration
    rw [← before, List.take_length]
    simpa [Machine.register, ← before] using member

/-- The callback that waits is called when the frame that registered it has suspended. -/
theorem Punctual.call (punctual : Punctual m) {function : Nat}
    (waits : m.callback = some function) {frame : Frame} {outer : List Frame}
    (runs : m.stack = frame :: outer) : Punctual (m.suspend outer) := by
  have complete := punctual.complete
  have numbers := punctual.numbers
  have distinct := punctual.distinct
  have suspended := punctual.suspended
  obtain ⟨top, below, stack, coroutine, last⟩ := punctual.registrant (by rw [waits]; nofun)
  obtain ⟨rfl, rfl⟩ := List.cons.inj (stack.symm.trans runs)
  have after := (Step.suspend runs coroutine).numbers numbers
  obtain ⟨registration, isLast, mine⟩ := Option.map_eq_some_iff.mp last
  obtain ⟨earlier, split⟩ := List.getLast?_eq_some_iff.mp isLast
  rw [waiting_some waits] at complete
  rw [runs] at numbers distinct suspended
  have frameNumber := numbers top List.mem_cons_self
  obtain ⟨notBelow, below_distinct⟩ := List.nodup_cons.mp distinct
  have count : earlier.length = m.ran.length := by
    have lengths := congrArg List.length complete
    rw [split] at lengths
    simpa using lengths
  rw [split, ← count, List.take_left] at suspended
  have fresh : m.frames ∉ below.map Frame.number := by
    intro member
    obtain ⟨other, old, same⟩ := List.mem_map.mp member
    exact absurd same (Nat.ne_of_lt (numbers other (List.mem_cons_of_mem _ old)))
  rw [suspend_some waits]
  refine ⟨?_, ?_, List.nodup_cons.mpr ⟨fresh, below_distinct⟩, fun again => absurd rfl again, ?_⟩
  · rw [waiting_none rfl, List.append_nil]
    exact complete
  · rw [suspend_some waits] at after
    exact after.1
  · have all : m.registered.take (m.ran ++ [Callback.mk function m.arg]).length =
        earlier ++ [registration] := by
      rw [split, List.length_append, ← count]
      exact List.take_of_length_le (by simp)
    rw [all]
    intro other member
    have gone : other.2 < m.frames ∧ other.2 ∉ below.map Frame.number := by
      rcases List.mem_append.mp member with old | new
      · obtain ⟨smaller, absent⟩ := suspended other old
        exact ⟨smaller, fun inside => absent (List.mem_cons_of_mem _ inside)⟩
      · rw [List.mem_singleton.mp new, mine]
        exact ⟨frameNumber, notBelow⟩
    refine ⟨Nat.lt_succ_of_lt gone.1, ?_⟩
    intro inside
    rcases List.mem_cons.mp inside with same | old
    · exact absurd same (Nat.ne_of_lt gone.1)
    · exact gone.2 old

theorem Step.punctual (step : Step m event next) (last : RegistersLast m event)
    (punctual : Punctual m) : Punctual next := by
  cases step with
  | execute => exact punctual.execute last
  | @register frame outer callback runs =>
      have coroutine : frame.callback = none := by
        apply last.2
        rw [runs]
        rfl
      exact punctual.register last.1 callback runs coroutine
  | suspend runs coroutine =>
      cases waits : m.callback with
      | none =>
          rw [suspend_none waits]
          exact punctual.leave waits runs
      | some function => exact punctual.call waits runs
  | finish runs called => exact punctual.leave last runs

theorem punctual_reachable (reachable : (system.restrict RegistersLast).Reachable m) :
    Punctual m := by
  induction reachable with
  | init start =>
      cases start
      exact ⟨rfl, nofun, List.nodup_nil, fun waits => absurd rfl waits, nofun⟩
  | step _ step inductionHypothesis => exact step.2.punctual step.1 inductionHypothesis

theorem punctual_step (reachable : (system.restrict RegistersLast).Reachable m)
    (step : Step m event next) (last : RegistersLast m event) :
    (system.restrict RegistersLast).Reachable next :=
  reachable.step ⟨last, step⟩

end Punctual

/-- The callbacks that ran are those whose frames were pushed. None runs twice, before one that
was registered earlier, or with another argument, however executions and registrations are
nested. Where coroutines register last, none is lost: each runs right after the coroutine that
registered it has suspended, and all have run when the thread is back where it started. -/
theorem registered_run_once :
    (∀ run, (system.watch [] called).Reachable run → run.1.ran = run.2) ∧
    (∀ m, system.Reachable m → InOrder m) ∧
    ∀ m, (system.restrict RegistersLast).Reachable m →
      Punctual m ∧ (m.stack = [] → m.registered.map Prod.fst = m.ran) := by
  refine ⟨fun run reachable => ran_reachable reachable,
    fun m reachable => inOrder_reachable reachable, fun m reachable => ?_⟩
  have punctual := punctual_reachable reachable
  refine ⟨punctual, fun idle => ?_⟩
  have empty : m.callback = none := by
    by_contra waits
    obtain ⟨frame, outer, stack, _⟩ := punctual.registrant waits
    rw [idle] at stack
    cases stack
  rw [punctual.complete, waiting_none empty, List.append_nil]

/-- A coroutine executes another, then registers a callback and suspends. -/
theorem registered_run_once_nested : ∃ m, (system.restrict RegistersLast).Reachable m ∧
    m.stack = [] ∧ m.frames = 3 ∧ m.ran = [{ function := 7, arg := 8 }] ∧
    m.registered.map Prod.fst = m.ran := by
  have start : (system.restrict RegistersLast).Reachable {} := .init rfl
  have outer := punctual_step start .execute rfl
  have inner := punctual_step outer .execute rfl
  have back := punctual_step inner (.suspend rfl rfl) trivial
  have registered := punctual_step back (.register { function := 7, arg := 8 } rfl)
    ⟨rfl, by decide⟩
  have called := punctual_step registered (.suspend rfl rfl) trivial
  have idle := punctual_step called (.finish rfl rfl) rfl
  exact ⟨_, idle, rfl, rfl, rfl, (registered_run_once.2.2 _ idle).2 rfl⟩

end NgrCore.TaskFacade
