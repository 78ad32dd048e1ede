import Mathlib.Logic.Function.Basic
import Mathlib.Logic.Relation
import NgrCore.Library.Transition

/-!
Owns `__promise_base` over the life of a task: the callback `__fwd_` that forwards a stop
request of the awaiting coroutine to `__source_`, its construction by
`_M_on_await_suspend`, its destruction by `__final_awaiter`, and `~__task`, which destroys
a frame with the tasks that live in it.

Tasks are numbered as they are created.
-/

namespace NgrCore.TaskPromise

open NgrCore.Library

/-- `bound` tasks have been awaited or handed to `__spawn_task`, `finished` ones stand at
their final suspend. -/
inductive Phase
  | created
  | bound
  | finished
deriving Repr, DecidableEq

/-- A promise and its frame: the frame in which its `__task` object lives, `__continuation_`
where it is a task, `__source_` with its callbacks, named by the promises they belong to,
and `__fwd_.__source_`. For the proofs only: how often `__fwd_` has been constructed and
destroyed. -/
structure Promise where
  alive : Bool := false
  phase : Phase := .created
  owner : Option Nat := none
  continuation : Option Nat := none
  stopRequested : Bool := false
  callbacks : List Nat := []
  fwd : Option Nat := none
  constructed : Nat := 0
  destroyed : Nat := 0
deriving Repr, DecidableEq

/-- The promises, the coroutine that runs, and the frames under destruction, innermost
first. For the proofs only: every `__source_` that was destroyed with the callbacks it had
then. -/
structure State where
  count : Nat := 0
  promise : Nat → Promise := fun _ => {}
  running : Option Nat := none
  unwinding : List Nat := []
  sources : List (Nat × List Nat) := []

/-- What happens next. `forward` is a callback that a call of `_M_request_stop` takes and
executes; `descend` and `perish` are the parts of the destruction of a frame: first the
tasks that live in it, then the promise. -/
inductive Event
  | create
  | spawn (c : Nat)
  | await (c : Nat)
  | resume (t : Nat)
  | suspend
  | finish
  | requestStop (t : Nat)
  | forward (p c : Nat)
  | destroy (c : Nat)
  | descend (c : Nat)
  | perish
deriving Repr, DecidableEq

namespace State

def set (s : State) (t : Nat) (promise : Promise) : State :=
  { s with promise := Function.update s.promise t promise }

/-- `_M_on_await_suspend`, which constructs `__fwd_`: either the callback is pushed to the
source of the parent, or stop is already requested there and it is executed at once. -/
def onAwaitSuspend (s : State) (c p : Nat) : State :=
  let child := { s.promise c with
    phase := .bound
    owner := some p
    continuation := some p
    constructed := (s.promise c).constructed + 1 }
  if (s.promise p).stopRequested then
    s.set c { child with fwd := none, stopRequested := true }
  else
    (s.set p { s.promise p with callbacks := c :: (s.promise p).callbacks }).set c
      { child with fwd := some p }

/-- `__fwd_._M_destroy()`: the destructor removes the callback where `__source_` is set. -/
def destroyFwd (s : State) (c : Nat) : State :=
  let removed := match (s.promise c).fwd with
    | some p => s.set p { s.promise p with callbacks := (s.promise p).callbacks.erase c }
    | none => s
  removed.set c { removed.promise c with
    phase := .finished
    fwd := none
    destroyed := (removed.promise c).destroyed + 1 }

/-- The frame of the task lies in the frame of the other one, directly or not. -/
def Inside (s : State) : Nat → Nat → Prop :=
  Relation.ReflTransGen fun inner outer => (s.promise inner).owner = some outer

end State

/-- The steps of the program. `__spawn_task` stores the continuation of a root in the
promise of its own coroutine, which destroys the task when the root has finished. -/
inductive Step (s : State) : Event → State → Prop
  | create (whole : s.unwinding = []) :
      Step s .create { s.set s.count { alive := true, owner := s.running } with
        count := s.count + 1 }
  | spawn {c : Nat} (whole : s.unwinding = []) (alive : (s.promise c).alive = true)
      (created : (s.promise c).phase = .created) :
      Step s (.spawn c) (s.set c { s.promise c with phase := .bound, owner := none })
  | await {c p : Nat} (whole : s.unwinding = []) (running : s.running = some p)
      (alive : (s.promise c).alive = true) (created : (s.promise c).phase = .created) :
      Step s (.await c) { s.onAwaitSuspend c p with running := some c }
  | resume {t : Nat} (whole : s.unwinding = []) (stopped : s.running = none)
      (alive : (s.promise t).alive = true) (bound : (s.promise t).phase = .bound)
      (leaf : ∀ c, (s.promise c).alive = true → (s.promise c).phase = .bound →
        (s.promise c).continuation ≠ some t) :
      Step s (.resume t) { s with running := some t }
  | suspend {t : Nat} (running : s.running = some t) : Step s .suspend { s with running := none }
  | finish {c : Nat} (whole : s.unwinding = []) (running : s.running = some c)
      (left : ∀ k, (s.promise k).alive = true → (s.promise k).owner ≠ some c) :
      Step s .finish { s.destroyFwd c with
        running := (s.promise c).continuation
        unwinding := if (s.promise c).continuation = none then [c] else [] }
  | requestStop {t : Nat} (alive : (s.promise t).alive = true) :
      Step s (.requestStop t) (s.set t { s.promise t with stopRequested := true })
  | forward {p c : Nat} (requested : (s.promise p).stopRequested = true)
      (listed : c ∈ (s.promise p).callbacks) :
      Step s (.forward p c)
        ((s.set p { s.promise p with callbacks := (s.promise p).callbacks.erase c }).set c
          { s.promise c with stopRequested := true })
  | destroy {c : Nat} (whole : s.unwinding = []) (alive : (s.promise c).alive = true)
      (still : ∀ t, s.running = some t → ¬ s.Inside t c) :
      Step s (.destroy c) { s with unwinding := [c] }
  | descend {t c : Nat} {rest : List Nat} (unwinding : s.unwinding = t :: rest)
      (alive : (s.promise c).alive = true) (inside : (s.promise c).owner = some t) :
      Step s (.descend c) { s with unwinding := c :: t :: rest }
  | perish {t : Nat} {rest : List Nat} (unwinding : s.unwinding = t :: rest)
      (empty : ∀ c, (s.promise c).alive = true → (s.promise c).owner ≠ some t) :
      Step s .perish { s.set t { s.promise t with alive := false } with
        unwinding := rest
        sources := s.sources ++ [(t, (s.promise t).callbacks)] }

def system : System State Event where
  Init s := s = {}
  Step := Step

end NgrCore.TaskPromise
