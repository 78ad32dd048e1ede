import NgrCore.IntrusiveQueue
import NgrCore.Library.Places
import NgrCore.Library.Transition
import NgrCore.RemoteSource.Ring

/-!
Owns the blocks of `__remote_source` at the level of their `__next_` fields: `_M_push` and
`_M_try_pop_swap_reversed` over the head pointers of the ring entries. Every atomic
operation is one step, and so is every round of `__create_reversed`.

Nothing is assumed of the counters and of `__state_`: whichever entry a call works on, a
block is in one place only.
-/

namespace NgrCore.RemoteSource.Pointers

open NgrCore.Library NgrCore.IntrusiveQueue

/-- An `__atomic_block_queue`: `__queue_.__head_` and `__n_`. -/
structure AtomicBlockQueue where
  head : Option Addr := none
  n : BitVec 64 := 0
deriving Repr, DecidableEq

/-- Where a call of `_M_push` stands. -/
inductive Push
  | load
  | read (e : Nat)
  | reserve (e : Nat) (n : BitVec 64)
  | front (e : Nat) (n : BitVec 64)
  | store (e : Nat) (n : BitVec 64) (old : Option Addr)
  | link (e : Nat) (n : BitVec 64) (old : Option Addr)
  | publish
deriving Repr, DecidableEq

/-- Where a call of `_M_try_pop_swap_reversed` stands. `reverse` has the variables of
`__create_reversed`; for the proofs only, `taken` lists what the entry held. -/
inductive Pop
  | load
  | advance (u : BitVec 64)
  | take (e : Nat)
  | detach (e : Nat) (old : Option Addr)
  | reverse (e : Nat) (list newHead newTail : Option Addr) (taken : List Addr)
  | reset (e : Nat) (result : IntrusiveQueue Addr) (taken : List Addr)
deriving Repr, DecidableEq

/-- A call; `returned` has handed its result to the caller. -/
inductive Call
  | idle
  | push (blk : Addr) (pc : Push)
  | tryPop (pc : Pop)
  | returned (result : IntrusiveQueue Addr) (blocks : List Addr)
deriving Repr, DecidableEq

/-- The blocks in transit in a call. -/
def Call.blocks : Call → List Addr
  | .idle | .push _ .publish => []
  | .push blk _ => [blk]
  | .tryPop (.reverse _ _ _ _ taken) | .tryPop (.reset _ _ taken) => taken
  | .tryPop _ => []
  | .returned _ blocks => blocks

/-- The `__next_` fields, `__ring_` and `__state_`, with the calls. For the proofs only: the
blocks that each thread holds, and those pushed to each entry since it was detached. -/
structure State (Thread : Type) where
  next : Links Addr
  ring : Nat → AtomicBlockQueue
  state : BitVec 64
  held : Thread → List Addr
  call : Thread → Call
  linked : Nat → List Addr

inductive Place (Thread : Type)
  | held (t : Thread)
  | call (t : Thread)
  | entry (e : Nat)
deriving Repr, DecidableEq

def State.blocks {Thread : Type} (s : State Thread) : Place Thread → List Addr
  | .held t => s.held t
  | .call t => (s.call t).blocks
  | .entry e => s.linked e

section Steps

variable {Thread : Type} [DecidableEq Thread]

def State.go (s : State Thread) (t : Thread) (call : Call) : State Thread :=
  { s with call := Function.update s.call t call }

def State.setN (s : State Thread) (e : Nat) (n : BitVec 64) : State Thread :=
  { s with ring := Function.update s.ring e { s.ring e with n } }

def State.setHead (s : State Thread) (e : Nat) (head : Option Addr) : State Thread :=
  { s with ring := Function.update s.ring e { s.ring e with head } }

def State.setNext (s : State Thread) (blk : Addr) (value : Option Addr) : State Thread :=
  { s with next := Function.update s.next blk value }

inductive PushStep (s : State Thread) (t : Thread) (blk : Addr) : Push → State Thread → Prop
  | load : PushStep s t blk .load (s.go t (.push blk (.read (slot (convert s.state).head))))
  | full {e : Nat} (full : (s.ring e).n = BitVec.ofNat 64 T) :
      PushStep s t blk (.read e) (s.go t (.push blk .load))
  | read {e : Nat} (notFull : (s.ring e).n ≠ BitVec.ofNat 64 T) :
      PushStep s t blk (.read e) (s.go t (.push blk (.reserve e (s.ring e).n)))
  | retry {e : Nat} {n : BitVec 64} :
      PushStep s t blk (.reserve e n) (s.go t (.push blk (.reserve e (s.ring e).n)))
  | reserve {e : Nat} {n : BitVec 64} (expected : (s.ring e).n = n) :
      PushStep s t blk (.reserve e n) ((s.setN e (n + 1)).go t (.push blk (.front e n)))
  | front {e : Nat} {n : BitVec 64} :
      PushStep s t blk (.front e n) (s.go t (.push blk (.store e n (s.ring e).head)))
  | store {e : Nat} {n : BitVec 64} {old : Option Addr} :
      PushStep s t blk (.store e n old) ((s.setNext blk old).go t (.push blk (.link e n old)))
  | relink {e : Nat} {n : BitVec 64} {old : Option Addr} :
      PushStep s t blk (.link e n old) (s.go t (.push blk (.store e n (s.ring e).head)))
  | link {e : Nat} {n : BitVec 64} {old : Option Addr} (expected : (s.ring e).head = old) :
      PushStep s t blk (.link e n old)
        { (s.setHead e (some blk)).go t
            (if n + 1 = BitVec.ofNat 64 T then .push blk .publish else .idle) with
          linked := Function.update s.linked e (blk :: s.linked e) }
  | publish : PushStep s t blk .publish { s.go t .idle with state := s.state + headStride }

inductive PopStep (s : State Thread) (t : Thread) : Pop → State Thread → Prop
  | load : PopStep s t .load (s.go t (.tryPop (.advance s.state)))
  | empty {u : BitVec 64} (empty : (convert u).head = (convert u).tail) :
      PopStep s t (.advance u) (s.go t (.returned {} []))
  | retry {u : BitVec 64} (available : (convert u).head ≠ (convert u).tail) :
      PopStep s t (.advance u) (s.go t (.tryPop (.advance s.state)))
  | advance {u : BitVec 64} (available : (convert u).head ≠ (convert u).tail)
      (expected : s.state = u) :
      PopStep s t (.advance u)
        { s.go t (.tryPop (.take (slot (convert u).tail))) with state := u + tailStride }
  | take {e : Nat} :
      PopStep s t (.take e) (s.go t (.tryPop (.detach e (s.ring e).head)))
  | retake {e : Nat} {old : Option Addr} :
      PopStep s t (.detach e old) (s.go t (.tryPop (.detach e (s.ring e).head)))
  | detach {e : Nat} {old : Option Addr} (expected : (s.ring e).head = old) :
      PopStep s t (.detach e old)
        { (s.setHead e none).go t (.tryPop (.reverse e old none old (s.linked e))) with
          linked := Function.update s.linked e [] }
  | reverse {e : Nat} {item : Addr} {newHead newTail : Option Addr} {taken : List Addr} :
      PopStep s t (.reverse e (some item) newHead newTail taken)
        ((s.setNext item newHead).go t
          (.tryPop (.reverse e (s.next item) (some item) newTail taken)))
  | reversed {e : Nat} {newHead newTail : Option Addr} {taken : List Addr} :
      PopStep s t (.reverse e none newHead newTail taken)
        (s.go t (.tryPop (.reset e ⟨newHead, newTail⟩ taken)))
  | reset {e : Nat} {result : IntrusiveQueue Addr} {taken : List Addr} :
      PopStep s t (.reset e result taken)
        ((s.setN e 0).go t (.returned result taken.reverse))

/-- The steps of a thread. Between its calls it may write the links of the blocks that it
holds. -/
inductive Step (s : State Thread) (t : Thread) : State Thread → Prop
  | beginPush {blk : Addr} (idle : s.call t = .idle) (holds : blk ∈ s.held t) :
      Step s t { s.go t (.push blk .load) with
        held := Function.update s.held t ((s.held t).erase blk) }
  | beginTryPop (idle : s.call t = .idle) : Step s t (s.go t (.tryPop .load))
  | push {blk : Addr} {pc : Push} {next : State Thread} (call : s.call t = .push blk pc)
      (step : PushStep s t blk pc next) : Step s t next
  | tryPop {pc : Pop} {next : State Thread} (call : s.call t = .tryPop pc)
      (step : PopStep s t pc next) : Step s t next
  | leave {result : IntrusiveQueue Addr} {blocks : List Addr}
      (returned : s.call t = .returned result blocks) :
      Step s t { s.go t .idle with
        held := Function.update s.held t (blocks ++ s.held t) }
  | write {blk : Addr} {value : Option Addr} (idle : s.call t = .idle)
      (holds : blk ∈ s.held t) : Step s t (s.setNext blk value)

/-- The blocks of a pool, held by threads that are in no call or linked in the entries. -/
structure Distributed (pool : Addr → Prop) (s : State Thread) : Prop where
  idle : ∀ t, s.call t = .idle
  placed : Placed pool s.blocks
  chains : ∀ e, Chain s.next (s.ring e).head (s.linked e)

/-- Any number of threads, interleaved, from any distribution of the blocks. -/
def system (Thread : Type) [DecidableEq Thread] (pool : Addr → Prop) :
    System (State Thread) Thread where
  Init := Distributed pool
  Step := Step

end Steps

end NgrCore.RemoteSource.Pointers
