import NgrCore.Library.Transition
import NgrCore.RoundUp
import Mathlib.Logic.Function.Basic

/-!
Owns coroutine frames: `operator new` and `operator delete` of `__promise_new_delete`,
the thread-local `__k_tls_alloc` that leads them to an `__allocator`, and
`__task_facade::_M_do_execute`, which takes it away while a task runs.

Allocators, frames and facades are numbers, and the place of an allocator is the list of
the frames below it. The members of a destroyed object keep their last values.
-/

namespace NgrCore.TaskFrame

open Library

/-- `alignof(__allocator *)`, which is also its size. -/
def pointerSize : Nat := 8

/-- `__alloc_address`: where `operator new` stores the pointer for `operator delete`. -/
def allocAddress (fr n : Nat) : Nat :=
  (roundUp (BitVec.ofNat 64 (fr + n)) (BitVec.ofNat 64 pointerSize)).toNat

def allocateSize (n : Nat) : Nat :=
  (roundUp (BitVec.ofNat 64 n) (BitVec.ofNat 64 pointerSize)).toNat + pointerSize

/-- A live frame: the size asked of `operator new`, the pointer stored behind it, the place
in its hidden prefix, and for the proofs only, the allocator it was pushed on. -/
structure Frame where
  n : Nat
  alloc : Option Nat
  saved : List Nat
  owner : Nat
deriving Repr, DecidableEq

inductive Status
  | created
  | bound
  | finished
deriving Repr, DecidableEq

/-- A call of `_M_do_execute` and the coroutine that runs in it. -/
structure Execution where
  facade : Nat
  frame : Nat
deriving Repr, DecidableEq

/-- A frame that `operator delete` has freed: the allocator it was pushed on and the one it
was popped from, whether that one was alive, and whether the frame was its most recent. -/
structure Freed where
  frame : Nat
  owner : Nat
  popped : Option Nat
  alive : Bool
  last : Bool
deriving Repr, DecidableEq

/-- An allocator that has been destroyed, and the live frames pushed on it. -/
structure Destroyed where
  allocator : Nat
  frames : List Nat
deriving Repr, DecidableEq

/-- One thread. `continuation` is the coroutine that awaits a frame, or none for the one
that `__spawn_task` made; `running` has the innermost execution first. For the proofs
only: the live frames pushed on every allocator, most recent first, and what has been
freed and destroyed. -/
structure State where
  kTlsAlloc : Option Nat := none
  alive : Nat → Bool := fun _ => false
  place : Nat → List Nat := fun _ => []
  frames : Nat → Option Frame := fun _ => none
  nextAlloc : Nat := 0
  nextFrame : Nat := 0
  status : Nat → Status := fun _ => .created
  continuation : Nat → Option Nat := fun _ => none
  resume : Nat → Option Nat := fun _ => none
  prevAlloc : Nat → Option Nat := fun _ => none
  running : List Execution := []
  live : Nat → List Nat := fun _ => []
  freed : List Freed := []
  destroyed : List Destroyed := []

namespace State

/-- `_M_push_stack_frame`, and the store to `__alloc_address`. -/
def push (s : State) (n : Nat) (alloc : Option Nat) (owner : Nat) : State :=
  { s with
    frames := Function.update s.frames s.nextFrame (some ⟨n, alloc, s.place owner, owner⟩)
    place := Function.update s.place owner (s.nextFrame :: s.place owner)
    live := Function.update s.live owner (s.nextFrame :: s.live owner)
    nextFrame := s.nextFrame + 1 }

/-- `new (std::nothrow) __allocator{}`, stored in `__k_tls_alloc`. -/
def createAllocator (s : State) : State :=
  { s with
    kTlsAlloc := some s.nextAlloc
    alive := Function.update s.alive s.nextAlloc true
    place := Function.update s.place s.nextAlloc []
    nextAlloc := s.nextAlloc + 1 }

def operatorNew (s : State) (n : Nat) : State :=
  match s.kTlsAlloc with
  | none => s.createAllocator.push n (some s.nextAlloc) s.nextAlloc
  | some pa => s.push n none pa

/-- `_M_pop_stack_frame` of a frame. -/
def pop (s : State) (alloc f : Nat) (frame : Frame) : State :=
  { s with
    place := Function.update s.place alloc frame.saved
    frames := Function.update s.frames f none
    live := Function.update s.live frame.owner ((s.live frame.owner).erase f)
    freed := s.freed ++ [⟨f, frame.owner, some alloc, s.alive alloc,
      (s.live alloc).head? = some f⟩] }

/-- `~__allocator`, and `__k_tls_alloc = nullptr` before it. -/
def destroyAllocator (s : State) (alloc : Nat) : State :=
  { s with
    kTlsAlloc := none
    alive := Function.update s.alive alloc false
    destroyed := s.destroyed ++ [⟨alloc, s.live alloc⟩] }

/-- `operator delete`; without an allocator it goes through a null pointer. -/
def operatorDelete (s : State) (f : Nat) (frame : Frame) : State :=
  match frame.alloc with
  | some alloc => (s.pop alloc f frame).destroyAllocator alloc
  | none =>
      match s.kTlsAlloc with
      | some alloc => s.pop alloc f frame
      | none => { s with freed := s.freed ++ [⟨f, frame.owner, none, false, false⟩] }

/-- `_M_do_execute` up to the resumption of the coroutine. -/
def execute (s : State) (facade c : Nat) : State :=
  { s with
    prevAlloc := Function.update s.prevAlloc facade s.kTlsAlloc
    kTlsAlloc := none
    resume := Function.update s.resume facade none
    running := ⟨facade, c⟩ :: s.running }

/-- `_M_do_execute` after the coroutine has given up control. -/
def leave (s : State) (facade : Nat) (rest : List Execution) : State :=
  { s with
    kTlsAlloc := s.prevAlloc facade
    prevAlloc := Function.update s.prevAlloc facade none
    running := rest }

end State

/-- What the program does next: calls a task coroutine, hands a task to `__async_spawn`,
awaits a task, executes a facade, suspends in an operation, finishes a coroutine, or
destroys a `__task` object whose coroutine does not run. -/
inductive Event
  | call (n : Nat)
  | spawn (c facade : Nat)
  | await (c : Nat)
  | execute (facade : Nat)
  | suspend (facade : Nat)
  | finish
  | drop (c : Nat)
deriving Repr, DecidableEq

/-- The steps of the thread. The coroutine that `__spawn_task` made frees the frame of its
task before control returns to `_M_do_execute`. -/
inductive Step (s : State) : Event → State → Prop
  | call (n : Nat) : Step s (.call n) (s.operatorNew n)
  | spawn (c facade : Nat) :
      (s.frames c).isSome → s.status c = .created → s.resume facade = none →
      Step s (.spawn c facade)
        { s with
          resume := Function.update s.resume facade (some c)
          continuation := Function.update s.continuation c none
          status := Function.update s.status c .bound }
  | await (c : Nat) {execution : Execution} {rest : List Execution} :
      s.running = execution :: rest → (s.frames c).isSome → s.status c = .created →
      Step s (.await c)
        { s with
          running := { execution with frame := c } :: rest
          continuation := Function.update s.continuation c (some execution.frame)
          status := Function.update s.status c .bound }
  | execute (facade : Nat) {c : Nat} :
      s.resume facade = some c → Step s (.execute facade) (s.execute facade c)
  | suspend (facade : Nat) {execution : Execution} {rest : List Execution} :
      s.running = execution :: rest → s.resume facade = none →
      Step s (.suspend facade)
        ({ s with resume := Function.update s.resume facade (some execution.frame) }.leave
          execution.facade rest)
  | finishChild {execution : Execution} {rest : List Execution} {parent : Nat} :
      s.running = execution :: rest → s.continuation execution.frame = some parent →
      Step s .finish
        { s with
          running := { execution with frame := parent } :: rest
          status := Function.update s.status execution.frame .finished }
  | finishRoot {execution : Execution} {rest : List Execution} {frame : Frame} :
      s.running = execution :: rest → s.continuation execution.frame = none →
      s.frames execution.frame = some frame →
      Step s .finish ((s.operatorDelete execution.frame frame).leave execution.facade rest)
  | drop (c : Nat) {frame : Frame} :
      s.frames c = some frame → s.status c ≠ .bound →
      Step s (.drop c) (s.operatorDelete c frame)

def system : System State Event where
  Init s := s = {}
  Step := Step

end NgrCore.TaskFrame
