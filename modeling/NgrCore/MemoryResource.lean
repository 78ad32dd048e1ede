import NgrCore.LocalSource
import NgrCore.RoundUp

/-!
Owns the pool of `__memory_resource.hpp`: the threads' local sources over one
`__remote_source`, with `_M_pop_swap_reversed` and the mappings of `_M_allocate`. Every
atomic operation is one step.
-/

namespace NgrCore.MemoryResource

open NgrCore.Library NgrCore.RemoteSource
open NgrCore.LocalSource (Move)

/-- `__V_`, the size of a mapping. -/
def V : Nat := (roundUp (BitVec.ofNat 64 (4096 + 4160 * M)) 4096).toNat

/-- The blocks that `_M_allocate` makes of a mapping. -/
def blocksOf (p : Addr) : List Addr := (List.range M).map fun j => p + 4096 + 4160 * j

def spinThreshold : Nat := 16

/-- Where a thread stands in the remote source: in the loop of `_M_pop_swap_reversed` with
its `__spin`, in `_M_allocate` it calls, or in `_M_push`. -/
inductive Remote
  | idle
  | pop (spin : Nat) (call : Call)
  | allocate
  | claim (p : Addr)
  | store (index : Nat) (p : Addr)
  | prepend (call : Call)
  | push (call : Call)
deriving Repr, DecidableEq

/-- What the conditions on runs see of a step. -/
inductive Action
  | thread (action : LocalSource.Action)
  | ring (action : RemoteSource.Action)
  | map
  | mapFailed
  | other
deriving Repr, DecidableEq

/-- The local sources, the ring, `__n_` and the memory from `__mmap_` on. For the proofs
only: the regions that have been mapped. A failed mapping throws in a `noexcept` function,
which terminates the program. -/
structure State (Thread : Type) where
  heap : LocalSource.State Thread := {}
  ring : Ring := {}
  n : BitVec 32 := 0
  mmap : Nat → Option Addr := fun _ => none
  remote : Thread → Remote := fun _ => .idle
  mapped : List Addr := []
  terminated : Bool := false

section Steps

variable {Thread : Type} [DecidableEq Thread]

namespace State

def go (s : State Thread) (t : Thread) (remote : Remote) : State Thread :=
  { s with remote := Function.update s.remote t remote }

/-- A region that the kernel can hand out. -/
def Fresh (s : State Thread) (p : Addr) : Prop :=
  0 < p ∧ 4096 ∣ p ∧ ∀ q ∈ s.mapped, p + V ≤ q ∨ q + V ≤ p

/-- The store to `__mmap_`, and the construction of the blocks. -/
def construct (s : State Thread) (index : Nat) (p : Addr) : State Thread :=
  { s with
    mmap := Function.update s.mmap index (some p)
    heap := { s.heap with
      useCount := fun blk => if blk ∈ blocksOf p then 0 else s.heap.useCount blk } }

/-- What `~__remote_source` unmaps. -/
def unmapped (s : State Thread) : List (Option Addr) := (List.range s.n.toNat).map s.mmap

end State

inductive Act (s : State Thread) (t : Thread) : Action → State Thread → Prop
  | thread {action : LocalSource.Action} {heap : LocalSource.State Thread}
      (idle : s.remote t = .idle) (own : action = .quiet ∨ action = .exit)
      (move : Move s.heap t action heap) : Act s t (.thread action) { s with heap }
  | beginPop {n : Nat} (pc : s.heap.pc t = .popping n) (idle : s.remote t = .idle) :
      Act s t .other (s.go t (.pop 0 (.tryPop .load)))
  | tryPop {spin : Nat} {call next : Call} {action : RemoteSource.Action} {ring : Ring}
      (pc : s.remote t = .pop spin call) (move : RemoteSource.Move s.ring call action ring next) :
      Act s t (.ring action) ({ s with ring }.go t (.pop spin next))
  | refill {spin : Nat} {batch : List Addr} {heap : LocalSource.State Thread}
      (pc : s.remote t = .pop spin (.returned batch)) (some : batch ≠ [])
      (move : Move s.heap t (.refill batch) heap) :
      Act s t (.thread (.refill batch)) ({ s with heap }.go t .idle)
  | spin {spin : Nat} (pc : s.remote t = .pop spin (.returned [])) (below : spin < spinThreshold) :
      Act s t .other (s.go t (.pop (spin + 1) (.tryPop .load)))
  | giveUp {spin : Nat} (pc : s.remote t = .pop spin (.returned []))
      (reached : ¬ spin < spinThreshold) : Act s t .other (s.go t .allocate)
  | map {p : Addr} (pc : s.remote t = .allocate) (fresh : s.Fresh p) :
      Act s t .map ({ s with mapped := s.mapped ++ [p] }.go t (.claim p))
  | mapFailed (pc : s.remote t = .allocate) :
      Act s t .mapFailed { s with terminated := true }
  | claim {p : Addr} (pc : s.remote t = .claim p) :
      Act s t .other ({ s with n := s.n + 1 }.go t (.store s.n.toNat p))
  | store {index : Nat} {p : Addr} (pc : s.remote t = .store index p) :
      Act s t .other ((s.construct index p).go t (.prepend (.prependFrom (blocksOf p) 0)))
  | prepend {call next : Call} {action : RemoteSource.Action} {ring : Ring}
      (pc : s.remote t = .prepend call) (move : RemoteSource.Move s.ring call action ring next) :
      Act s t (.ring action) ({ s with ring }.go t (.prepend next))
  | prepended {batch : List Addr} (pc : s.remote t = .prepend (.returned batch)) :
      Act s t .other (s.go t (.pop 0 (.tryPop .load)))
  | beginPush {blk : Addr} {resume : Option Nat} (pc : s.heap.pc t = .giving blk resume)
      (idle : s.remote t = .idle) : Act s t .other (s.go t (.push (.push blk .load)))
  | push {call next : Call} {action : RemoteSource.Action} {ring : Ring}
      (pc : s.remote t = .push call) (move : RemoteSource.Move s.ring call action ring next) :
      Act s t (.ring action) ({ s with ring }.go t (.push next))
  | pushed {blk : Addr} {batch : List Addr} {heap : LocalSource.State Thread}
      (pc : s.remote t = .push (.returned batch)) (move : Move s.heap t (.give blk) heap) :
      Act s t (.thread (.give blk)) ({ s with heap }.go t .idle)

/-- A step of a thread, unless the program has been terminated. -/
def Step (s : State Thread) (label : Thread × Action) (next : State Thread) : Prop :=
  s.terminated = false ∧ Act s label.1 label.2 next

/-- Any number of threads that acquire, release and exit, interleaved. -/
def system (Thread : Type) [DecidableEq Thread] : System (State Thread) (Thread × Action) where
  Init s := s = {}
  Step := Step

end Steps

end NgrCore.MemoryResource
