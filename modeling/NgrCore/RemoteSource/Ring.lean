import NgrCore.IoringTask
import NgrCore.Library.Transition
import NgrCore.RemoteSource

/-!
Owns the ring of `__remote_source` and the calls that work on it: `_M_push`,
`_M_prepend` and `_M_try_pop_swap_reversed`. Every atomic operation is one step.

A queue of blocks is the list of its blocks, front first; its head pointer is the
first of them.
-/

namespace NgrCore.RemoteSource

/-- `__T_`, the number of blocks of a batch. -/
def T : Nat := 16

/-- `__N_`, the number of mappings. -/
def N : Nat := 16

/-- `__M_`, the number of blocks of a mapping. -/
def M : Nat := 64

/-- `__K_`, the number of entries. -/
def K : Nat := N * M / T

/-- An `__atomic_block_queue`: `__queue_` and `__n_`. -/
structure Entry where
  blocks : List Addr := []
  n : Nat := 0
deriving Repr, DecidableEq

/-- `__state_` and `__ring_`; for the proofs only, what the entry at head held at each
publication, and the batches that pops returned. -/
structure Ring where
  state : BitVec 64 := 0
  entry : Nat → Entry := fun _ => {}
  published : List (List Addr) := []
  popped : List (List Addr) := []

/-- The entry of a counter: `__ring_[__x & (__K_ - 1)]`. -/
def slot (counter : BitVec 32) : Nat := (counter &&& BitVec.ofNat 32 (K - 1)).toNat

namespace Ring

def head (ring : Ring) : BitVec 32 := (convert ring.state).head

def tail (ring : Ring) : BitVec 32 := (convert ring.state).tail

def setN (ring : Ring) (e n : Nat) : Ring :=
  { ring with entry := Function.update ring.entry e { ring.entry e with n := n } }

/-- A store to the head of the queue of an entry. -/
def setBlocks (ring : Ring) (e : Nat) (blocks : List Addr) : Ring :=
  { ring with entry := Function.update ring.entry e { ring.entry e with blocks := blocks } }

/-- `__state_.fetch_add(__head_stride_)`. -/
def publish (ring : Ring) : Ring :=
  { ring with
    state := ring.state + headStride
    published := ring.published ++ [(ring.entry (slot ring.head)).blocks] }

end Ring

/-- `__r`, the unsigned difference `__T_ - __n`. -/
def room (n : Nat) : Nat := (T + 2 ^ 64 - n) % 2 ^ 64 % 2 ^ 32

/-- `__k + __r`, an unsigned sum: the last block of the piece is the one before it. -/
def pieceEnd (k n : Nat) : Nat := (k + room n) % 2 ^ 32

/-- Where a call of `_M_push` stands. -/
inductive PushPc
  | load
  | read (e : Nat)
  | reserve (e n : Nat)
  | front (e n : Nat)
  | link (e n : Nat) (old : Option Addr)
  | publish (e : Nat)
deriving Repr, DecidableEq

/-- Where a call of `_M_prepend` stands. `outOfBounds` has read past the end of
`__ptr`. `misplaced` has not, but its range does not end behind its beginning, and
the splice of it leaves no lists behind. -/
inductive PrependPc
  | load
  | read (e : Nat)
  | reserve (e n : Nat)
  | reload (e : Nat)
  | front (e n : Nat)
  | link (e n : Nat) (old : Option Addr)
  | publish (e n : Nat)
  | outOfBounds
  | misplaced
deriving Repr, DecidableEq

/-- Where a call of `_M_try_pop_swap_reversed` stands. -/
inductive PopPc
  | load
  | advance (u : BitVec 64)
  | take (e : Nat)
  | detach (e : Nat) (old : Option Addr)
  | reset (e : Nat) (taken : List Addr)
deriving Repr, DecidableEq

/-- A call with its arguments; `ptr` lists the blocks of a new mapping, and those from
`k` on are still in the queue `__blk`. -/
inductive Call
  | push (blk : Addr) (pc : PushPc)
  | prepend (ptr : List Addr) (k : Nat) (pc : PrependPc)
  | tryPop (pc : PopPc)
  | returned (batch : List Addr)
deriving Repr, DecidableEq

/-- What a step does, as far as conditions on runs speak of it. -/
inductive Action
  | reserve
  | publish
  | other
deriving Repr, DecidableEq

inductive PushMove (ring : Ring) (blk : Addr) : PushPc → Action → Ring → Call → Prop
  | load : PushMove ring blk .load .other ring (.push blk (.read (slot ring.head)))
  | full {e : Nat} (full : (ring.entry e).n = T) :
      PushMove ring blk (.read e) .other ring (.push blk .load)
  | read {e : Nat} (notFull : (ring.entry e).n ≠ T) :
      PushMove ring blk (.read e) .other ring (.push blk (.reserve e (ring.entry e).n))
  | retry {e n : Nat} :
      PushMove ring blk (.reserve e n) .other ring (.push blk (.reserve e (ring.entry e).n))
  | reserve {e n : Nat} (expected : (ring.entry e).n = n) :
      PushMove ring blk (.reserve e n) .reserve (ring.setN e ((n + 1) % 2 ^ 64))
        (.push blk (.front e n))
  | front {e n : Nat} :
      PushMove ring blk (.front e n) .other ring
        (.push blk (.link e n (ring.entry e).blocks.head?))
  | relink {e n : Nat} {old : Option Addr} :
      PushMove ring blk (.link e n old) .other ring
        (.push blk (.link e n (ring.entry e).blocks.head?))
  | link {e n : Nat} {old : Option Addr} (expected : (ring.entry e).blocks.head? = old) :
      PushMove ring blk (.link e n old) .other (ring.setBlocks e (blk :: (ring.entry e).blocks))
        (if (n + 1) % 2 ^ 64 = T then .push blk (.publish e) else .returned [])
  | publish {e : Nat} : PushMove ring blk (.publish e) .publish ring.publish (.returned [])

/-- The head of the loop of `_M_prepend`. -/
def Call.prependFrom (ptr : List Addr) (k : Nat) : Call :=
  if ptr.drop k = [] then .returned [] else .prepend ptr k .load

inductive PrependMove (ring : Ring) (ptr : List Addr) (k : Nat) :
    PrependPc → Action → Ring → Call → Prop
  | load : PrependMove ring ptr k .load .other ring (.prepend ptr k (.read (slot ring.head)))
  | full {e : Nat} (full : (ring.entry e).n = T) :
      PrependMove ring ptr k (.read e) .other ring (.prepend ptr k .load)
  | read {e : Nat} (notFull : (ring.entry e).n ≠ T) :
      PrependMove ring ptr k (.read e) .other ring
        (.prepend ptr k (.reserve e (ring.entry e).n))
  | retry {e n : Nat} :
      PrependMove ring ptr k (.reserve e n) .other ring
        (.prepend ptr k
          (if (ring.entry e).n = T then .reload e else .reserve e (ring.entry e).n))
  | reload {e : Nat} :
      PrependMove ring ptr k (.reload e) .other ring
        (.prepend ptr k (.reserve e (ring.entry e).n))
  | reserve {e n : Nat} (expected : (ring.entry e).n = n) :
      PrependMove ring ptr k (.reserve e n) .reserve (ring.setN e T)
        (if n = T then .prepend ptr k .load
        else if 0 < room n ∧ k + room n ≤ ptr.length then .prepend ptr k (.front e n)
        -- the sum has wrapped, or the difference is 0
        else if 0 < pieceEnd k n ∧ pieceEnd k n ≤ ptr.length then .prepend ptr k .misplaced
        else .prepend ptr k .outOfBounds)
  | front {e n : Nat} :
      PrependMove ring ptr k (.front e n) .other ring
        (.prepend ptr k (.link e n (ring.entry e).blocks.head?))
  | relink {e n : Nat} {old : Option Addr} :
      PrependMove ring ptr k (.link e n old) .other ring
        (.prepend ptr k (.link e n (ring.entry e).blocks.head?))
  | link {e n : Nat} {old : Option Addr} (expected : (ring.entry e).blocks.head? = old) :
      PrependMove ring ptr k (.link e n old) .other
        (ring.setBlocks e ((ptr.drop k).take (room n) ++ (ring.entry e).blocks))
        (.prepend ptr k (.publish e n))
  | publish {e n : Nat} :
      PrependMove ring ptr k (.publish e n) .publish ring.publish
        (.prependFrom ptr (k + room n))

inductive PopMove (ring : Ring) : PopPc → Action → Ring → Call → Prop
  | load : PopMove ring .load .other ring (.tryPop (.advance ring.state))
  | empty {u : BitVec 64} (empty : (convert u).head = (convert u).tail) :
      PopMove ring (.advance u) .other ring (.returned [])
  | retry {u : BitVec 64} (available : (convert u).head ≠ (convert u).tail) :
      PopMove ring (.advance u) .other ring (.tryPop (.advance ring.state))
  | advance {u : BitVec 64} (available : (convert u).head ≠ (convert u).tail)
      (expected : ring.state = u) :
      PopMove ring (.advance u) .other { ring with state := u + tailStride }
        (.tryPop (.take (slot (convert u).tail)))
  | take {e : Nat} :
      PopMove ring (.take e) .other ring (.tryPop (.detach e (ring.entry e).blocks.head?))
  | retake {e : Nat} {old : Option Addr} :
      PopMove ring (.detach e old) .other ring
        (.tryPop (.detach e (ring.entry e).blocks.head?))
  | detach {e : Nat} {old : Option Addr} (expected : (ring.entry e).blocks.head? = old) :
      PopMove ring (.detach e old) .other (ring.setBlocks e [])
        (.tryPop (.reset e (ring.entry e).blocks.reverse))
  | reset {e : Nat} {taken : List Addr} :
      PopMove ring (.reset e taken) .other
        { ring.setN e 0 with popped := ring.popped ++ [taken] } (.returned taken)

inductive Move (ring : Ring) : Call → Action → Ring → Call → Prop
  | push {blk : Addr} {pc : PushPc} {action : Action} {next : Ring} {call : Call}
      (move : PushMove ring blk pc action next call) :
      Move ring (.push blk pc) action next call
  | prepend {ptr : List Addr} {k : Nat} {pc : PrependPc} {action : Action} {next : Ring}
      {call : Call} (move : PrependMove ring ptr k pc action next call) :
      Move ring (.prepend ptr k pc) action next call
  | tryPop {pc : PopPc} {action : Action} {next : Ring} {call : Call}
      (move : PopMove ring pc action next call) : Move ring (.tryPop pc) action next call

def Call.blocks : Call → List Addr
  | .push _ (.publish _) => []
  | .push blk _ => [blk]
  | .prepend ptr k (.publish _ n) => ptr.drop (k + room n)
  | .prepend ptr k _ => ptr.drop k
  | .tryPop (.reset _ taken) => taken
  | .tryPop _ => []
  | .returned _ => []

/-- The calls of any number of threads; a thread whose call has returned is in none. -/
structure State (Thread : Type) where
  ring : Ring := {}
  call : Thread → Call := fun _ => .returned []

section System

variable {Thread : Type} [DecidableEq Thread]

/-- No entry and no call holds the block. -/
def State.Free (s : State Thread) (blk : Addr) : Prop :=
  (∀ e, blk ∉ (s.ring.entry e).blocks) ∧ ∀ t, blk ∉ (s.call t).blocks

/-- A call that may begin. A block links one list at a time, so a call is given blocks
that are in none. -/
inductive Begins (s : State Thread) : Call → Prop
  | push {blk : Addr} (free : s.Free blk) : Begins s (.push blk .load)
  | prepend {ptr : List Addr} (length : ptr.length = M) (distinct : ptr.Nodup)
      (free : ∀ blk ∈ ptr, s.Free blk) : Begins s (.prepend ptr 0 .load)
  | tryPop : Begins s (.tryPop .load)

inductive Step (s : State Thread) : Thread × Action → State Thread → Prop
  | begin {t : Thread} {batch : List Addr} {call : Call} (idle : s.call t = .returned batch)
      (begins : Begins s call) :
      Step s (t, .other) { s with call := Function.update s.call t call }
  | move {t : Thread} {action : Action} {next : Ring} {call : Call}
      (move : Move s.ring (s.call t) action next call) :
      Step s (t, action) { ring := next, call := Function.update s.call t call }

/-- Any number of threads, interleaved, from an empty ring. -/
def system (Thread : Type) [DecidableEq Thread] :
    Library.System (State Thread) (Thread × Action) where
  Init s := s = {}
  Step := Step

end System

end NgrCore.RemoteSource
