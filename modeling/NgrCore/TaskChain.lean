import Mathlib.Logic.Function.Basic
import NgrCore.Library.Transition

/-!
Owns a chain of awaiting tasks and the stop requests that run down it: the coroutine thread
awaits and finishes tasks through `_M_on_await_suspend` and `__final_awaiter`, any number
of threads call `_M_request_stop` on the source of a task. One step is what happens under
the lock of one source, or the execution of a callback on its own.

The sources are those of the promises; only the callbacks that forward a request are in
their lists, named by the task they belong to. Tasks are numbered as they are awaited.
-/

namespace NgrCore.TaskChain

open NgrCore.Library

/-- A `__stop_source`: its flag and its callbacks. -/
structure Source where
  stopRequested : Bool := false
  callbacks : List Nat := []
deriving Repr, DecidableEq

/-- Where a call of `_M_request_stop` stands, or the innermost call that one of its
callbacks makes. -/
inductive Pc
  | enter (t : Nat)
  | test
  | complete (c : Nat)
  | done (result : Bool)
deriving Repr, DecidableEq

/-- A call of `_M_request_stop` on the source of `target`: the sources whose callbacks it is
executing, innermost first. -/
structure Request where
  target : Nat
  stack : List Nat := []
  pc : Pc
deriving Repr, DecidableEq

/-- A call on that source begins. -/
def Request.begin (t : Nat) : Request := { target := t, pc := .enter t }

/-- The call on the source of `t` returns: to its caller, or to the loop one source further
out, whose callback it was. -/
def Request.return (request : Request) (t : Nat) (result : Bool) (stack : List Nat) : Request :=
  { request with stack, pc := if stack = [] then .done result else .complete t }

/-- The coroutine thread runs the innermost task, executes the callback of a task that is
awaited while stop is requested, or waits in the destructor of the callback of a task that
has finished. -/
inductive Coroutine
  | running
  | executing (c : Nat) (request : Request)
  | waiting
deriving Repr, DecidableEq

/-- The tasks of the chain, innermost first, their sources, whether `__source_` of their
`__fwd_` is set and whether it has completed, and the calls. -/
structure State (Id : Type) where
  count : Nat := 1
  chain : List Nat := [0]
  source : Nat → Source := fun _ => {}
  registered : Nat → Bool := fun _ => false
  completed : Nat → Bool := fun _ => false
  coroutine : Coroutine := .running
  calls : Id → Option Request := fun _ => none

section Steps

variable {Id : Type}

def State.setSource (s : State Id) (t : Nat) (source : Source) : State Id :=
  { s with source := Function.update s.source t source }

inductive RequestStep (s : State Id) (request : Request) : State Id → Request → Prop
  | refuse {t : Nat} (pc : request.pc = .enter t) (requested : (s.source t).stopRequested = true) :
      RequestStep s request s (request.return t true request.stack)
  | win {t : Nat} (pc : request.pc = .enter t) (first : (s.source t).stopRequested = false) :
      RequestStep s request (s.setSource t { s.source t with stopRequested := true })
        { request with stack := t :: request.stack, pc := .test }
  | take {t c : Nat} {outer callbacks : List Nat} (pc : request.pc = .test)
      (stack : request.stack = t :: outer) (front : (s.source t).callbacks = c :: callbacks) :
      RequestStep s request (s.setSource t { s.source t with callbacks })
        { request with pc := .enter c }
  | last {t : Nat} {outer : List Nat} (pc : request.pc = .test)
      (stack : request.stack = t :: outer) (empty : (s.source t).callbacks = []) :
      RequestStep s request s (request.return t false outer)
  | complete {c : Nat} (pc : request.pc = .complete c) :
      RequestStep s request { s with completed := Function.update s.completed c true }
        { request with pc := .test }

/-- The steps of the coroutine thread. An awaited task is in the chain from its resumption
on. -/
inductive CoroutineStep (s : State Id) : State Id → Prop
  | push {p : Nat} {outer : List Nat} (running : s.coroutine = .running)
      (chain : s.chain = p :: outer) (notYet : (s.source p).stopRequested = false) :
      CoroutineStep s { s.setSource p { s.source p with
          callbacks := s.count :: (s.source p).callbacks } with
        count := s.count + 1
        chain := s.count :: s.chain
        registered := Function.update s.registered s.count true }
  | execute {p : Nat} {outer : List Nat} (running : s.coroutine = .running)
      (chain : s.chain = p :: outer) (requested : (s.source p).stopRequested = true) :
      CoroutineStep s { s with
        count := s.count + 1
        coroutine := .executing s.count (.begin s.count) }
  | request {c : Nat} {request next : Request} {after : State Id}
      (executing : s.coroutine = .executing c request)
      (step : RequestStep s request after next) :
      CoroutineStep s { after with coroutine := .executing c next }
  | executed {c : Nat} {request : Request} {result : Bool}
      (executing : s.coroutine = .executing c request) (done : request.pc = .done result) :
      CoroutineStep s { s with chain := c :: s.chain, coroutine := .running }
  | remove {c p : Nat} {outer : List Nat} (running : s.coroutine = .running)
      (chain : s.chain = c :: p :: outer) (registered : s.registered c = true)
      (listed : c ∈ (s.source p).callbacks) :
      CoroutineStep s { s.setSource p { s.source p with
          callbacks := (s.source p).callbacks.erase c } with
        chain := p :: outer }
  | wait {c p : Nat} {outer : List Nat} (running : s.coroutine = .running)
      (chain : s.chain = c :: p :: outer) (registered : s.registered c = true)
      (taken : c ∉ (s.source p).callbacks) :
      CoroutineStep s { s with coroutine := .waiting }
  | waited {c : Nat} {outer : List Nat} (waiting : s.coroutine = .waiting)
      (chain : s.chain = c :: outer) (completed : s.completed c = true) :
      CoroutineStep s { s with chain := outer, coroutine := .running }
  | finish {c p : Nat} {outer : List Nat} (running : s.coroutine = .running)
      (chain : s.chain = c :: p :: outer) (executed : s.registered c = false) :
      CoroutineStep s { s with chain := p :: outer }

variable [DecidableEq Id]

/-- A step of the coroutine thread, or of a call on the source of a task in the chain. -/
inductive Step (s : State Id) : Option Id → State Id → Prop
  | coroutine {after : State Id} (step : CoroutineStep s after) : Step s none after
  | call {k : Id} {t : Nat}
      (idle : ∀ request, s.calls k = some request → ∃ result, request.pc = .done result)
      (member : t ∈ s.chain) :
      Step s (some k) { s with calls := Function.update s.calls k (some (.begin t)) }
  | request {k : Id} {request next : Request} {after : State Id}
      (call : s.calls k = some request) (step : RequestStep s request after next) :
      Step s (some k) { after with calls := Function.update after.calls k (some next) }

/-- One task that runs, and any number of threads. -/
def system (Id : Type) [DecidableEq Id] : System (State Id) (Option Id) where
  Init s := s = {}
  Step := Step

end Steps

end NgrCore.TaskChain
