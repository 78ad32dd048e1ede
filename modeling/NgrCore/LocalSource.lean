import NgrCore.Library.Transition
import NgrCore.RemoteSource.Ring

/-!
Owns `__local_source` with `__acquire` and `__release`: the bump cursor of each thread, the
use counts of the blocks, and the free list of each thread. Every operation on a use
count is one step; what a thread does to its own source in between belongs to the step.

The blocks that `__remote_source` hands out and takes back are labels of the steps.
-/

namespace NgrCore.LocalSource

open NgrCore.RemoteSource (T)

structure Subrange where
  source : Addr
  offset : Nat
  len : Nat
deriving Repr, DecidableEq

/-- `__local_source`. The queue is the list of its blocks, front first. -/
structure Source where
  queue : List Addr := []
  consume : Option Addr := none
  bump : Nat := 4096
  count : BitVec 32 := 0
deriving Repr, DecidableEq

/-- Where a thread stands. `drop`, `consume` and `take` are before an operation on a use
count; `giving` and `popping` are inside `_M_push` and `_M_pop_swap_reversed` of the remote
source. A number is the argument of `_M_acquire`. -/
inductive Pc
  | idle
  | drop (n : Nat)
  | giving (blk : Addr) (resume : Option Nat)
  | popping (n : Nat)
  | consume (n : Nat)
  | take (n : Nat)
  | exited
deriving Repr, DecidableEq

/-- What the remote source or the conditions on runs see of a step. -/
inductive Action
  | quiet
  | give (blk : Addr)
  | refill (batch : List Addr)
  | exit
deriving Repr, DecidableEq

namespace Source

/-- The second half of `_M_allocate`, which pops the remote source when the queue is empty. -/
def proceed (source : Source) (n : Nat) : Pc :=
  if source.queue = [] then .popping n else .consume n

/-- The entry of `_M_acquire`. -/
def enter (source : Source) (n : Nat) : Pc :=
  if n ≤ 4096 - source.bump then .take n
  else if source.consume = none then source.proceed n
  else .drop n

/-- The return from `_M_release` to `_M_allocate` or to `__release`. -/
def resume (source : Source) : Option Nat → Pc
  | some n => source.proceed n
  | none => .idle

end Source

/-- The use counts, the source of each thread, and the subranges that are not released. For
the proofs only: how often each block has entered a free list since it was consumed, and
the subranges that each thread has acquired, latest first. -/
structure State (Thread : Type) where
  useCount : Addr → Int := fun _ => 0
  source : Thread → Source := fun _ => {}
  pc : Thread → Pc := fun _ => .idle
  live : List Subrange := []
  entries : Addr → Nat := fun _ => 0
  history : Thread → List Subrange := fun _ => []

section Steps

variable {Thread : Type} [DecidableEq Thread]

namespace State

def go (s : State Thread) (t : Thread) (pc : Pc) : State Thread :=
  { s with pc := Function.update s.pc t pc }

def setSource (s : State Thread) (t : Thread) (source : Source) : State Thread :=
  { s with source := Function.update s.source t source }

/-- `__atomic_fetch_add` on the use count of a block. -/
def addUse (s : State Thread) (blk : Addr) (change : Int) : State Thread :=
  { s with useCount := Function.update s.useCount blk (s.useCount blk + change) }

/-- `_M_release`: the block goes to the queue of the thread, or to the remote source. -/
def recycle (s : State Thread) (t : Thread) (blk : Addr) (resume : Option Nat) : State Thread :=
  let source := s.source t
  let entered := { s with entries := Function.update s.entries blk (s.entries blk + 1) }
  if source.count < BitVec.ofNat 32 T then
    let source := { source with queue := blk :: source.queue, count := source.count + 1 }
    (entered.setSource t source).go t (source.resume resume)
  else entered.go t (.giving blk resume)

/-- The result of `_M_acquire` once the subrange fits. -/
def acquired (s : State Thread) (t : Thread) (blk : Addr) (n : Nat) : State Thread :=
  let source := s.source t
  let subrange : Subrange := { source := blk, offset := source.bump, len := n }
  { (s.setSource t { source with bump := source.bump + n }).go t .idle with
    live := subrange :: s.live
    history := Function.update s.history t (subrange :: s.history t) }

end State

inductive Move (s : State Thread) (t : Thread) : Action → State Thread → Prop
  | acquire {n : Nat} (idle : s.pc t = .idle) (positive : 1 ≤ n) (small : n ≤ 4096) :
      Move s t .quiet (s.go t ((s.source t).enter n))
  | dropLast {n : Nat} {blk : Addr} (pc : s.pc t = .drop n)
      (owned : (s.source t).consume = some blk) (last : s.useCount blk = 1) :
      Move s t .quiet ((s.addUse blk (-1)).recycle t blk (some n))
  | drop {n : Nat} {blk : Addr} (pc : s.pc t = .drop n)
      (owned : (s.source t).consume = some blk) (shared : s.useCount blk ≠ 1) :
      Move s t .quiet ((s.addUse blk (-1)).go t ((s.source t).proceed n))
  | give {blk : Addr} {resume : Option Nat} (pc : s.pc t = .giving blk resume) :
      Move s t (.give blk) (s.go t ((s.source t).resume resume))
  | refill {n : Nat} {batch : List Addr} (pc : s.pc t = .popping n) (some : batch ≠ []) :
      Move s t (.refill batch) ((s.setSource t { s.source t with
        queue := batch ++ (s.source t).queue
        count := (s.source t).count + BitVec.ofNat 32 T }).go t (.consume n))
  | consume {n : Nat} {blk : Addr} {rest : List Addr} (pc : s.pc t = .consume n)
      (queue : (s.source t).queue = blk :: rest) :
      Move s t .quiet { ((s.setSource t {
          queue := rest
          consume := some blk
          bump := 0
          count := (s.source t).count - 1 }).addUse blk 1).go t (.take n) with
        entries := Function.update s.entries blk 0 }
  | take {n : Nat} {blk : Addr} (pc : s.pc t = .take n)
      (owned : (s.source t).consume = some blk) :
      Move s t .quiet ((s.addUse blk 1).acquired t blk n)
  | releaseLast {x : Subrange} (idle : s.pc t = .idle) (held : x ∈ s.live)
      (last : s.useCount x.source = 1) :
      Move s t .quiet
        (({ s with live := s.live.erase x }.addUse x.source (-1)).recycle t x.source none)
  | release {x : Subrange} (idle : s.pc t = .idle) (held : x ∈ s.live)
      (shared : s.useCount x.source ≠ 1) :
      Move s t .quiet ({ s with live := s.live.erase x }.addUse x.source (-1))
  | exitOwner {blk : Addr} (idle : s.pc t = .idle) (owned : (s.source t).consume = some blk) :
      Move s t .exit (((s.addUse blk (-1)).setSource t {}).go t .exited)
  | exit (idle : s.pc t = .idle) (owned : (s.source t).consume = none) :
      Move s t .exit ((s.setSource t {}).go t .exited)

end Steps

end NgrCore.LocalSource
