import Mathlib.Logic.Function.Basic
import NgrCore.RoundUp

/-!
Owns `__allocator`, the stack of coroutine frames: chunks obtained from
`::operator new`, linked from `__chunk_`, and frames laid one behind the other in
them, each behind a hidden prefix.

An address is a number, and memory is read and written in cells of sixteen bytes, the
size of both prefixes.
A sum that `std::size_t` cannot hold is the error `overflow`.
-/

namespace NgrCore.Allocator

/-- `__STDCPP_DEFAULT_NEW_ALIGNMENT__`, which is also `sizeof(__chunk_prefix)` and
`sizeof(__frame_prefix)`. -/
def alignment : Nat := 16

def minCapacity : Nat := 1024

def growthFactor : Nat := 2

/-- What sixteen bytes hold: a `__chunk_prefix`, a `__frame_prefix`, or anything else. -/
inductive Cell
  | raw
  | chunk (next : Option Nat) (limit : Nat)
  | frame (chunk : Option Nat) (curBump : Nat)
deriving Repr, DecidableEq

/-- Memory that `::operator new` returned. -/
structure Region where
  start : Nat
  size : Nat
deriving Repr, DecidableEq

def Region.limit (region : Region) : Nat := region.start + region.size

def Region.Has (region : Region) (x : Nat) : Prop := region.start ≤ x ∧ x < region.limit

def Region.Apart (region other : Region) : Prop :=
  region.limit ≤ other.start ∨ other.limit ≤ region.start

/-- `::operator new(__n, std::nothrow)`, as a function of what it has returned so far. -/
structure OperatorNew where
  address : List Region → Nat → Nat
  aligned : ∀ (obtained : List Region) (n : Nat), alignment ∣ address obtained n
  apart : ∀ (obtained : List Region) (n : Nat), ∀ region ∈ obtained,
    region.Apart ⟨address obtained n, n⟩

/-- The members of an `__allocator`, the memory it works on, and what it has obtained. -/
structure State where
  memory : Nat → Cell
  obtained : List Region := []
  chunk : Option Nat := none
  curChunk : Option Nat := none
  curBump : Nat := 0
  nextCap : Nat := minCapacity

inductive Fault
  | overflow
  | nullDereference
  | misread
  | outOfFuel
deriving Repr, DecidableEq

/-- `_M_start`. -/
def start (chunk : Nat) : Nat := chunk + alignment

/-- The bytes that a frame of `__sz` bytes takes, prefix included. -/
def frameSize (sz : Nat) : Nat :=
  (roundUp (BitVec.ofNat 64 (alignment + sz)) (BitVec.ofNat 64 alignment)).toNat

namespace State

/-- `*__p = __cell`. -/
def write (state : State) (p : Nat) (cell : Cell) : State :=
  { state with memory := Function.update state.memory p cell }

/-- A new chunk with its prefix, not yet linked. -/
def obtain (state : State) (chunk curCap : Nat) : State :=
  let n := alignment + curCap
  { state.write chunk (.chunk none (chunk + n)) with
    obtained := state.obtained ++ [⟨chunk, n⟩]
    nextCap := curCap * growthFactor }

/-- `__cur_chunk_` and `__cur_bump_` at the start of a chunk. -/
def enter (state : State) (chunk : Nat) : State :=
  { state with curChunk := some chunk, curBump := start chunk }

end State

section Operations

variable (heap : OperatorNew)

def allocateChunk (state : State) (hint : Nat) : Except Fault (Nat × State) :=
  let curCap := if state.nextCap < hint then hint else state.nextCap
  let n := alignment + curCap
  if 2 ^ 64 ≤ n ∨ 2 ^ 64 ≤ curCap * growthFactor then
    .error .overflow
  else
    let chunk := heap.address state.obtained n
    let fresh := state.obtain chunk curCap
    match state.curChunk with
    | none => .ok (chunk, { fresh with chunk := some chunk })
    | some cur =>
        match fresh.memory cur with
        | .chunk _ limit => .ok (chunk, fresh.write cur (.chunk (some chunk) limit))
        | _ => .error .misread

/-- The loop of `_M_push_stack_frame`; `saved` is `__saved_cur_chunk` and
`__saved_cur_bump`. -/
def pushLoop (n : Nat) (saved : Option Nat × Nat) :
    Nat → State → Except Fault (Nat × State)
  | 0, _ => .error .outOfFuel
  | fuel + 1, state =>
      match state.curChunk with
      | none => .error .nullDereference
      | some cur =>
          match state.memory cur with
          | .chunk next limit =>
              let r := state.curBump + alignment
              if r + n ≤ limit then
                .ok (r, { state.write state.curBump (.frame saved.1 saved.2) with
                  curBump := state.curBump + n })
              else
                match next with
                | some chunk => pushLoop n saved fuel (state.enter chunk)
                | none => do
                    let (chunk, grown) ← allocateChunk heap state n
                    pushLoop n saved fuel (grown.enter chunk)
          | _ => .error .misread

/-- `_M_push_stack_frame`. The loop moves to a later chunk or obtains a new one, and at
most two new ones. -/
def pushStackFrame (state : State) (sz : Nat) : Except Fault (Nat × State) :=
  if 2 ^ 64 < alignment + sz + alignment then
    .error .overflow
  else
    let n := frameSize sz
    match state.curChunk with
    | some cur => pushLoop heap n (some cur, state.curBump) (state.obtained.length + 3) state
    | none => do
        let (chunk, grown) ← allocateChunk heap state n
        pushLoop heap n (some chunk, start chunk) (grown.obtained.length + 3) (grown.enter chunk)

def popStackFrame (state : State) (fr : Nat) : Except Fault State :=
  match state.memory (fr - alignment) with
  | .frame chunk curBump => .ok { state with curChunk := chunk, curBump := curBump }
  | _ => .error .misread

/-- The loop of `~__allocator`: the addresses it passes to `::operator delete`. -/
def destroyLoop (memory : Nat → Cell) : Nat → Option Nat → Except Fault (List Nat)
  | _, none => .ok []
  | 0, some _ => .error .outOfFuel
  | fuel + 1, some h =>
      match memory h with
      | .chunk next _ => do
          let freed ← destroyLoop memory fuel next
          return h :: freed
      | _ => .error .misread

/-- `~__allocator`. -/
def destroy (state : State) : Except Fault (List Nat) :=
  destroyLoop state.memory state.obtained.length state.chunk

end Operations

/-- A live frame: what `_M_push_stack_frame` returned and was asked for, and for the
proofs only, `__cur_chunk_` and `__cur_bump_` when the call began. -/
structure Frame where
  address : Nat
  sz : Nat
  held : Option Nat × Nat
deriving Repr, DecidableEq

/-- `__cur_chunk_` and `__cur_bump_` when a push begins; on an empty allocator, the start
of the chunk that becomes the first. -/
def held (before after : State) : Option Nat × Nat :=
  match before.curChunk with
  | some cur => (some cur, before.curBump)
  | none => (after.chunk, after.chunk.elim 0 start)

/-- An allocator and its live frames, most recent first. -/
structure Machine where
  allocator : State
  live : List Frame := []

inductive Call
  | push (sz : Nat)
  | pop
  | other
deriving Repr, DecidableEq

/-- The bytes that the owner of a frame may write. -/
def Frame.Owns (frame : Frame) (x : Nat) : Prop :=
  frame.address ≤ x ∧ x < frame.address + frame.sz

/-- Pushes, pops of the most recent live frame, and writes of the rest of the program: to
the bytes of live frames and to memory that the allocator has not obtained. -/
inductive Step (heap : OperatorNew) : Machine → Call → Machine → Prop
  | push {machine : Machine} {next : State} {sz : Nat} {address : Nat} :
      pushStackFrame heap machine.allocator sz = .ok (address, next) →
      Step heap machine (.push sz)
        { allocator := next
          live := ⟨address, sz, held machine.allocator next⟩ :: machine.live }
  | pop {machine : Machine} {next : State} {frame : Frame} {rest : List Frame} :
      machine.live = frame :: rest →
      popStackFrame machine.allocator frame.address = .ok next →
      Step heap machine .pop { allocator := next, live := rest }
  | other {machine : Machine} {memory : Nat → Cell} :
      (∀ x, memory x ≠ machine.allocator.memory x →
        (∃ frame ∈ machine.live, frame.Owns x) ∨
          ∀ region ∈ machine.allocator.obtained, ¬region.Has x) →
      Step heap machine .other { machine with allocator := { machine.allocator with memory } }

end NgrCore.Allocator
