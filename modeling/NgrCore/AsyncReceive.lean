import NgrCore.Library.Bytes
import NgrCore.Library.Transition
import NgrCore.IoringTask
import Mathlib.Logic.Function.Basic

/-!
Owns `__async_receive`: the buffer ring it shares with the kernel, what it makes of every
CQE, and the coroutine that awaits it again after each slice.

The kernel writes where the first entry of the ring says and moves that entry on, so it
keeps its place in a buffer across receives and multishots. Nothing cancels a receive:
`__complete` sees every CQE, in the order in which they were posted.
-/

namespace NgrCore

open Library

def ENOBUFS : Int := 105

def IORING_CQE_F_BUF_MORE : BitVec 32 := 1#32 <<< 4

def IORING_CQE_BUFFER_SHIFT : Nat := 16

/-- The buffer of the CQE keeps free space. -/
def Cqe.bufMore (cqe : Cqe) : Bool := (cqe.flags &&& IORING_CQE_F_BUF_MORE) != 0

/-- The buffer of the CQE. -/
def Cqe.bid (cqe : Cqe) : BitVec 16 := (cqe.flags >>> IORING_CQE_BUFFER_SHIFT).setWidth 16

/-- `io_uring_buf`. -/
structure Buf where
  addr : Nat
  len : BitVec 32
  bid : BitVec 16
deriving Repr, DecidableEq

/-- `__async_receive`, with the entries and the tail of the ring that `__ring_` leads to. -/
structure AsyncReceive where
  bufs : Nat → Buf
  tail : BitVec 16
  bufMem : Nat
  multishotLive : Bool := false
  bid : BitVec 16 := 0
  offset : BitVec 32 := 0
  len : BitVec 32 := 0
  bufMore : Bool := false
  curOffset : BitVec 32 := 0
  replenishPending : Bool := false
  replenishBid : BitVec 16 := 0

namespace AsyncReceive

def nrBufs : BitVec 32 := 256

def bufSize : BitVec 32 := 4096

def mask : BitVec 32 := nrBufs - 1

def slot (bufMem : Nat) (bid : BitVec 16) : Nat := bufMem + (bid.setWidth 32 * bufSize).toNat

/-- The entry of the ring that a free-running counter selects. -/
def entry (counter : BitVec 16) : Nat := (counter.setWidth 32 &&& mask).toNat

/-- An entry with a whole buffer. -/
def whole (bufMem : Nat) (bid : BitVec 16) : Buf := ⟨slot bufMem bid, bufSize, bid⟩

def replenish (op : AsyncReceive) (bid : BitVec 16) : AsyncReceive :=
  { op with
    bufs := Function.update op.bufs (entry op.tail) (whole op.bufMem bid)
    tail := op.tail + 1 }

/-- `_M_setup_ring`, with the buffers mapped at `bufMem`. -/
def setupRing (bufMem : Nat) : AsyncReceive where
  bufs := (List.range nrBufs.toNat).foldl
    (fun bufs i => Function.update bufs i (whole bufMem (BitVec.ofNat 16 i)))
    fun _ => ⟨0, 0, 0⟩
  tail := nrBufs.setWidth 16
  bufMem

def submit (op : AsyncReceive) : AsyncReceive := { op with multishotLive := true }

/-- How `__complete` ends: with a submission, without anything, or with the coroutine. -/
inductive Outcome
  | submit
  | stop
  | execute
deriving Repr, DecidableEq

def complete (op : AsyncReceive) (cqe : Cqe) : AsyncReceive × Outcome :=
  if cqe.res = -ENOBUFS then ({ op with multishotLive := false, curOffset := 0 }, .submit)
  else if cqe.res ≤ 0 then (op, .stop)
  else
    let op :=
      { op with
        multishotLive := if cqe.more then op.multishotLive else false
        bid := cqe.bid
        len := BitVec.ofInt 32 cqe.res
        bufMore := cqe.bufMore
        offset := op.curOffset }
    if cqe.bufMore then ({ op with curOffset := op.curOffset + op.len }, .execute)
    else
      ({ op with curOffset := 0, replenishPending := true, replenishBid := op.bid }, .execute)

/-- `await_suspend`, and whether it registers the submission. -/
def awaitSuspend (op : AsyncReceive) : AsyncReceive × Bool :=
  let op :=
    if op.replenishPending then
      { op.replenish op.replenishBid with replenishPending := false }
    else op
  (op, !op.multishotLive)

/-- `await_resume`: the address and the length of the slice. -/
def awaitResume (op : AsyncReceive) : Nat × BitVec 32 :=
  (slot op.bufMem op.bid + op.offset.toNat, op.len)

/-- A CQE, and the bytes the kernel has written for it. -/
structure Posted where
  cqe : Cqe
  bytes : List (BitVec 8)
deriving Repr, DecidableEq

/-- The buffer that the kernel has used up with a receive, if it has. -/
def Posted.usedUp (posted : Posted) : List (BitVec 16) :=
  if 0 < posted.cqe.res ∧ posted.cqe.bufMore = false then [posted.cqe.bid] else []

/-- Where the thread is: in the coroutine, behind `await_suspend` and before the callback
it may have registered, or in the loop of the scheduler. -/
inductive Phase
  | running
  | leaving (callback : Bool)
  | idle
deriving Repr, DecidableEq

/-- The operation, the memory, the kernel's counter of the ring and its multishot, the
CQEs not yet handled, and how often the operation is queued with the scheduler and lies in
the submission queue. For the proofs only: the CQE whose slice is being read, and the
buffers used up by the kernel, those whose last slice has been read, and those put back. -/
structure Machine where
  op : AsyncReceive
  mem : Bytes
  head : BitVec 16 := 0
  live : Bool := false
  cq : List Posted := []
  queued : Nat := 0
  submitted : Nat := 0
  phase : Phase := .running
  given : Option Posted := none
  used : List (BitVec 16) := []
  consumed : List (BitVec 16) := []
  putBack : List (BitVec 16) := []

namespace Machine

def current (m : Machine) : Buf := m.op.bufs (entry m.head)

/-- A receive: the bytes go to the free space of the current buffer, and its entry moves
on or is used up. -/
def receive (m : Machine) (posted : Posted) : Machine :=
  let written :=
    { m with
      mem := m.mem.write m.current.addr posted.bytes
      cq := m.cq ++ [posted]
      live := posted.cqe.more }
  if posted.bytes.length < m.current.len.toNat then
    { written with
      op := { m.op with
        bufs := Function.update m.op.bufs (entry m.head)
          { m.current with
            addr := m.current.addr + posted.bytes.length
            len := m.current.len - BitVec.ofNat 32 posted.bytes.length } } }
  else
    { written with
      head := m.head + 1
      used := m.used ++ [m.current.bid] }

/-- The kernel ends the multishot without a receive. -/
def endMultishot (m : Machine) (cqe : Cqe) : Machine :=
  { m with cq := m.cq ++ [⟨cqe, []⟩], live := false }

/-- `__complete`, up to the resumption of the coroutine. -/
def complete (m : Machine) (posted : Posted) : Machine :=
  match m.op.complete posted.cqe with
  | (op, .submit) => { m with op, queued := m.queued + 1 }
  | (op, .stop) => { m with op }
  | (op, .execute) => { m with op, phase := .running, given := some posted }

/-- The coroutine has read its slice and awaits again. -/
def await (m : Machine) : Machine :=
  { m with
    op := m.op.awaitSuspend.1
    phase := .leaving m.op.awaitSuspend.2
    given := none
    consumed := m.consumed ++ m.given.toList.flatMap Posted.usedUp
    putBack := m.putBack ++ if m.op.replenishPending then [m.op.replenishBid] else [] }

/-- `_M_do_execute` runs the callback, which is `_M_submit`. -/
def leave (m : Machine) (callback : Bool) : Machine :=
  { m with
    phase := .idle
    queued := if callback then m.queued + 1 else m.queued }

end Machine

inductive Event
  | arm
  | receive (posted : Posted)
  | endMultishot (cqe : Cqe)
  | flush
  | complete
  | await
  | leave
deriving Repr, DecidableEq

/-- The steps of the kernel, at any time, and of the thread. The kernel uses the buffers
in ring order, sets `IORING_CQE_F_BUF_MORE` exactly while the current one keeps free
space, answers `-ENOBUFS` only when the ring holds none, and may end a multishot with any
CQE. -/
inductive Step (m : Machine) : Event → Machine → Prop
  | arm : 0 < m.submitted →
      Step m .arm { m with submitted := m.submitted - 1, live := true }
  | receive (posted : Posted) :
      m.live = true → m.head ≠ m.op.tail →
      0 < posted.bytes.length → posted.bytes.length ≤ m.current.len.toNat →
      posted.cqe.res = posted.bytes.length → posted.cqe.bid = m.current.bid →
      posted.cqe.bufMore = decide (posted.bytes.length < m.current.len.toNat) →
      Step m (.receive posted) (m.receive posted)
  | noBuffers (cqe : Cqe) :
      m.live = true → m.head = m.op.tail → cqe.res = -ENOBUFS → cqe.more = false →
      Step m (.endMultishot cqe) (m.endMultishot cqe)
  | finish (cqe : Cqe) :
      m.live = true → cqe.res ≤ 0 → cqe.res ≠ -ENOBUFS → cqe.more = false →
      Step m (.endMultishot cqe) (m.endMultishot cqe)
  | flush : m.phase = .idle → 0 < m.queued →
      Step m .flush
        { m with
          op := m.op.submit
          queued := m.queued - 1
          submitted := m.submitted + 1 }
  | complete {posted : Posted} {rest : List Posted} :
      m.phase = .idle → m.cq = posted :: rest →
      Step m .complete ({ m with cq := rest }.complete posted)
  | await : m.phase = .running → Step m .await m.await
  | leave {callback : Bool} : m.phase = .leaving callback →
      Step m .leave (m.leave callback)

/-- The coroutine has constructed the operation and not awaited it yet. -/
def system : System Machine Event where
  Init m := ∃ bufMem mem, m = { op := setupRing bufMem, mem }
  Step := Step

end AsyncReceive

end NgrCore
