import NgrCore.IntrusiveQueue.Splice
import NgrCore.RemoteSource.Batches
import NgrCore.RemoteSource.Pointers

/-!
Owns `__remote_source` under a single thread, at the level of the `__next_` fields: calls
that run to their end, with `_M_allocate` and the pieces that `_M_prepend` cuts off the
array and the list of new blocks.
-/

namespace NgrCore.RemoteSource.SingleThread

open NgrCore.Library NgrCore.IntrusiveQueue
open NgrCore.RemoteSource.Pointers (AtomicBlockQueue)

/-- The `__next_` fields, `__ring_` and `__state_`. -/
structure Remote where
  next : Links Addr := fun _ => none
  ring : Nat → AtomicBlockQueue := fun _ => {}
  state : BitVec 64 := 0

/-- Why a call does not return: it waits for another thread, reads past the end of `__ptr`,
or follows a null pointer. -/
inductive Fault
  | spins
  | outOfBounds
  | nullDereference
  | outOfFuel
deriving Repr, DecidableEq

namespace Remote

def head (s : Remote) : BitVec 32 := (convert s.state).head

def tail (s : Remote) : BitVec 32 := (convert s.state).tail

def push (s : Remote) (blk : Addr) : Except Fault Remote :=
  let e := slot s.head
  let q := s.ring e
  if q.n = BitVec.ofNat 64 T then .error .spins
  else .ok {
    next := Function.update s.next blk q.head
    ring := Function.update s.ring e { head := some blk, n := q.n + 1 }
    state := if q.n + 1 = BitVec.ofNat 64 T then s.state + headStride else s.state }

/-- `_M_try_pop_swap_reversed`. The fuel of `__create_reversed` is that of a batch. -/
def tryPop (s : Remote) : Except Fault (IntrusiveQueue Addr × Remote) :=
  if s.head = s.tail then .ok ({}, s)
  else
    let e := slot s.tail
    match createReversed s.next T (s.ring e).head with
    | none => .error .outOfFuel
    | some (next, r) => .ok (r, {
        next
        ring := Function.update s.ring e {}
        state := s.state + tailStride })

/-- One round of the loop of `_M_prepend`: the next value of `__k` and what is left of
`__blk`. -/
def prependPiece (ptr : List Addr) (s : Remote) (k : Nat) (blk : IntrusiveQueue Addr) :
    Except Fault (Remote × Nat × IntrusiveQueue Addr) :=
  let e := slot s.head
  let q := s.ring e
  if q.n = BitVec.ofNat 64 T then .error .spins
  else
    let r := room q.n.toNat
    let sentinel := if k + r < M then ptr[k + r]? else none
    match ptr[k + r - 1]? with
    | none => .error .outOfBounds
    | some last =>
        match splice s.next {} (ends {}) blk blk.begin ⟨some last, sentinel⟩ with
        | some (next, ⟨head, some tail⟩, rest) => .ok ({
            next := Function.update next tail q.head
            ring := Function.update s.ring e { head, n := BitVec.ofNat 64 T }
            state := s.state + headStride }, k + r, rest)
        | _ => .error .nullDereference

def prependLoop (ptr : List Addr) : Nat → Remote → Nat → IntrusiveQueue Addr →
    Except Fault Remote
  | fuel, s, k, blk =>
      if blk.isEmpty then .ok s
      else
        match fuel with
        | 0 => .error .outOfFuel
        | fuel + 1 => do
            let (s, k, blk) ← prependPiece ptr s k blk
            prependLoop ptr fuel s k blk

/-- The list that `_M_allocate` makes of the blocks of a mapping. -/
def fill (next : Links Addr) (ptr : List Addr) : Links Addr × IntrusiveQueue Addr :=
  ptr.foldl (fun filled blk => filled.2.pushBack filled.1 blk) (next, {})

/-- `_M_allocate`, once the blocks are constructed. Every round takes at least one block. -/
def allocate (s : Remote) (ptr : List Addr) : Except Fault Remote :=
  let filled := fill s.next ptr
  prependLoop ptr (ptr.length + 1) { s with next := filled.1 } 0 filled.2

end Remote

/-- The ring, and the blocks that were popped and not pushed. -/
structure Machine where
  remote : Remote := {}
  held : List Addr := []

/-- The blocks of a new mapping. -/
structure Fresh (machine : Machine) (ptr : List Addr) : Prop where
  length : ptr.length = M
  distinct : ptr.Nodup
  notHeld : ∀ blk ∈ ptr, blk ∉ machine.held
  notStored : ∀ blk ∈ ptr, ∀ e nodes,
    Chain machine.remote.next (machine.remote.ring e).head nodes → blk ∉ nodes

/-- What acquires and releases do to the ring: blocks held are pushed, batches are popped,
new blocks are prepended; the links of blocks held belong to the free list of the thread. -/
inductive Step (machine : Machine) : Machine → Prop
  | push {blk : Addr} {remote : Remote} (held : blk ∈ machine.held)
      (ran : machine.remote.push blk = .ok remote) :
      Step machine ⟨remote, machine.held.erase blk⟩
  | tryPop {r : IntrusiveQueue Addr} {remote : Remote} {blocks : List Addr}
      (ran : machine.remote.tryPop = .ok (r, remote))
      (returned : Represents remote.next r blocks) :
      Step machine ⟨remote, blocks ++ machine.held⟩
  | allocate {ptr : List Addr} {remote : Remote} (fresh : Fresh machine ptr)
      (ran : machine.remote.allocate ptr = .ok remote) :
      Step machine ⟨remote, machine.held⟩
  | relink {next : Links Addr}
      (others : ∀ blk, blk ∉ machine.held → next blk = machine.remote.next blk) :
      Step machine ⟨{ machine.remote with next }, machine.held⟩

def system : System Machine Unit where
  Init machine := machine = {}
  Step machine _ next := Step machine next

end NgrCore.RemoteSource.SingleThread
