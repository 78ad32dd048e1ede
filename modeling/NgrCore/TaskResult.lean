import Mathlib.Logic.Function.Basic
import NgrCore.Library.DirectStyle
import NgrCore.Library.Simulation

/-!
Owns how results and exceptions travel between tasks: `__promise_generic_storage`, the
continuations that `_M_on_await_suspend` and `__spawn_task` store, `__final_awaiter`,
`await_resume`, and the destruction of the promises, for one spawned task and everything it
awaits.

The bodies of the coroutines are programs of `DirectStyle`: an `await` creates a task and
awaits it, a `drop` creates one and destroys it at once, and a `suspend` is any other
awaitable. The kind of a task says whether it is a `__task<void>`, whose parent gets no value.
-/

namespace NgrCore.TaskResult

open NgrCore.Library

variable {Value Error Answer : Type}

/-- What the parent of a task gets of its value. -/
def payload (void : Bool) (value : Value) : Option Value := if void then none else some value

/-- The body of a coroutine. -/
abbrev Code (Value Error Answer : Type) := Body Bool Value (Option Value) Error Answer

inductive Sg
  | none
  | error
  | result
deriving Repr, DecidableEq

/-- The union of `__error_` and `__result_`: `raw` before either is constructed. -/
inductive Cell (Value Error : Type)
  | raw
  | error (error : Error)
  | result (value : Value)
deriving Repr, DecidableEq

/-- `__promise_generic_storage`, and its specialization for `void`. -/
inductive Storage (Value Error : Type)
  | generic (state : Sg) (cell : Cell Value Error)
  | void (except : Option Error)
deriving Repr, DecidableEq

namespace Storage

def make (void : Bool) : Storage Value Error := if void then .void none else .generic .none .raw

/-- `return_value` and `return_void`. -/
def returnValue (value : Value) : Storage Value Error → Storage Value Error
  | .generic _ _ => .generic .result (.result value)
  | .void except => .void except

def setException (error : Error) : Storage Value Error → Storage Value Error
  | .generic _ _ => .generic .error (.error error)
  | .void _ => .void (some error)

/-- `_M_throw_uncaught`: the error it throws, if any. `none` reads a member of the union that
is not there. -/
def throwUncaught : Storage Value Error → Option (Option Error)
  | .generic .error (.error error) => some (some error)
  | .generic .error _ => none
  | .generic _ _ => some none
  | .void except => some except

/-- `_M_result`. `none` reads a member of the union that is not there. -/
def result : Storage Value Error → Option (Option Value)
  | .generic _ (.result value) => some (some value)
  | .generic _ _ => none
  | .void _ => some none

def awaitResume (storage : Storage Value Error) : Option (Except Error (Option Value)) :=
  match storage.throwUncaught with
  | none => none
  | some (some error) => some (.error error)
  | some none => storage.result.map .ok

/-- The destructor does not come to its `__builtin_unreachable`. -/
def destroyable : Storage Value Error → Bool
  | .generic .none _ => false
  | _ => true

end Storage

/-- `__continuation_`: the awaiting task, or the coroutine of `__spawn_task`. -/
inductive Continuation
  | noop
  | task (index : Nat)
  | spawned
deriving Repr, DecidableEq

inductive Position (Value Error Answer : Type)
  | initial (body : Code Value Error Answer)
  | inside
  | awaiting (child : Nat) (next : Except Error (Option Value) → Code Value Error Answer)
  | suspended (next : Answer → Code Value Error Answer)

/-- A promise and its frame. -/
structure Promise (Value Error Answer : Type) where
  alive : Bool := false
  void : Bool := false
  storage : Storage Value Error := .void none
  continuation : Continuation := .noop
  position : Position Value Error Answer := .inside

/-- The promise of a new coroutine. -/
def Promise.make (void : Bool) (continuation : Continuation)
    (position : Position Value Error Answer) : Promise Value Error Answer where
  alive := true
  void := void
  storage := .make void
  continuation := continuation
  position := position

/-- What runs: the body of a task, `__final_awaiter` of a task, nothing, or nothing any more,
after the coroutine of `__spawn_task` has destroyed itself. -/
inductive Control (Value Error Answer : Type)
  | stopped
  | running (task : Nat) (body : Code Value Error Answer)
  | final (task : Nat)
  | returned

/-- The promises, numbered as they are created, and whether a destructor or an `await_resume`
did what it must not. For the proofs only: the answers so far, and what the first task left
in its storage. -/
structure State (Value Error Answer : Type) where
  promise : Nat → Promise Value Error Answer := fun _ => {}
  count : Nat
  control : Control Value Error Answer
  unreachable : Bool := false
  answers : List Answer := []
  outcome : Option (Except Error (Option Value)) := none

/-- What happens: the first resumption, an answer to a suspended coroutine, a task that is
destroyed before it runs, or anything else. -/
inductive Event (Answer : Type)
  | tau
  | start
  | answer (answer : Answer)
  | drop (void : Bool)
deriving Repr, DecidableEq

namespace State

def set (s : State Value Error Answer) (t : Nat) (promise : Promise Value Error Answer) :
    State Value Error Answer :=
  { s with promise := Function.update s.promise t promise }

/-- The destructor of a promise. -/
def destroy (s : State Value Error Answer) (t : Nat) : State Value Error Answer :=
  { s.set t { s.promise t with alive := false } with
    unreachable := s.unreachable || !(s.promise t).storage.destroyable }

end State

/-- A spawned task before it runs. `__spawn_task` has stored its own coroutine in it. -/
def spawned (void : Bool) (body : Code Value Error Answer) : State Value Error Answer where
  promise := Function.update (fun _ => {}) 0 (.make void .spawned (.initial body))
  count := 1
  control := .stopped

inductive Step (s : State Value Error Answer) :
    Event Answer → State Value Error Answer → Prop
  | start {t : Nat} {body : Code Value Error Answer} (stopped : s.control = .stopped)
      (alive : (s.promise t).alive = true) (position : (s.promise t).position = .initial body) :
      Step s .start { s.set t { s.promise t with position := .inside } with
        control := .running t body }
  | answer {t : Nat} {next : Answer → Code Value Error Answer} (answer : Answer)
      (stopped : s.control = .stopped) (alive : (s.promise t).alive = true)
      (position : (s.promise t).position = .suspended next) :
      Step s (.answer answer) { s.set t { s.promise t with position := .inside } with
        control := .running t (next answer)
        answers := s.answers ++ [answer] }
  | await {t : Nat} {void : Bool} {child : Code Value Error Answer}
      {next : Except Error (Option Value) → Code Value Error Answer}
      (running : s.control = .running t (.await void child next)) :
      Step s .tau { (s.set t { s.promise t with position := .awaiting s.count next }).set s.count
          (.make void (.task t) .inside) with
        count := s.count + 1
        control := .running s.count child }
  | drop {t : Nat} {void : Bool} {child next : Code Value Error Answer}
      (running : s.control = .running t (.drop void child next)) :
      Step s (.drop void) { (s.set s.count (.make void .noop (.initial child))).destroy s.count with
        count := s.count + 1
        control := .running t next }
  | suspend {t : Nat} {next : Answer → Code Value Error Answer}
      (running : s.control = .running t (.suspend next)) :
      Step s .tau { s.set t { s.promise t with position := .suspended next } with
        control := .stopped }
  | ret {t : Nat} {value : Value} (running : s.control = .running t (.ret value)) :
      Step s .tau { s.set t { s.promise t with
          storage := (s.promise t).storage.returnValue value } with
        control := .final t }
  | throw {t : Nat} {error : Error} (running : s.control = .running t (.throw error)) :
      Step s .tau { s.set t { s.promise t with
          storage := (s.promise t).storage.setException error } with
        control := .final t }
  | resume {t p : Nat} {next : Except Error (Option Value) → Code Value Error Answer}
      {outcome : Except Error (Option Value)} (final : s.control = .final t)
      (continuation : (s.promise t).continuation = .task p)
      (position : (s.promise p).position = .awaiting t next)
      (result : (s.promise t).storage.awaitResume = some outcome) :
      Step s .tau { (s.set p { s.promise p with position := .inside }).destroy t with
        control := .running p (next outcome) }
  | corrupt {t p : Nat} (final : s.control = .final t)
      (continuation : (s.promise t).continuation = .task p)
      (nothing : (s.promise t).storage.awaitResume = none) :
      Step s .tau { s with unreachable := true, control := .stopped }
  | finish {t : Nat} (final : s.control = .final t)
      (continuation : (s.promise t).continuation = .spawned) :
      Step s .tau { s.destroy t with
        control := .returned
        outcome := (s.promise t).storage.awaitResume }

/-- One spawned task. -/
def system (void : Bool) (body : Code Value Error Answer) :
    System (State Value Error Answer) (Event Answer) where
  Init s := s = spawned void body
  Step := Step

end NgrCore.TaskResult
