import NgrCore.Library.RingCounter
import NgrCore.Library.Transition
import NgrCore.IntrusiveQueue
import NgrCore.IoringTask

/-!
Owns `__submission_queue::_M_submit` on the ring memory it shares with the
kernel: 32-bit counters, the index array, the SQE slots, and the intrusive
queue the operations come from. The kernel may consume published entries
between any two steps of the call.

Proves the safety of a submission in normal mode, and what it does to the ring
read as a list. The stop-mode branch is part of the model; its results are not
owned here.
-/

namespace NgrCore.SubmissionQueue

open NgrCore.Library

def IORING_OP_ASYNC_CANCEL : BitVec 8 := 14

/-- The fields of an `io_uring_sqe` that the loop reads or writes. -/
structure Sqe where
  opcode : BitVec 8
  userData : Addr
deriving Repr, DecidableEq

def umin (first second : BitVec 32) : BitVec 32 := if first < second then first else second

/-- The ring memory: `__head_`, `__tail_`, `__array_` and `__sqe_`. -/
structure Ring where
  head : BitVec 32
  tail : BitVec 32
  array : Nat → BitVec 32
  sqe : Nat → Sqe

/-- Where a call of `_M_submit` stands, with its local variables. -/
inductive Pc
  | loadTail (max : BitVec 32) (stop : Bool)
  | loadHead (tail max : BitVec 32) (stop : Bool)
  | loop (tail r max : BitVec 32) (stop : Bool)
  | returned (r : BitVec 32)

/-- One call: the ring, the links and the queue, the tasks, and the position in
the code. `headSeen` records the value `__head` was loaded with. -/
structure State where
  ring : Ring
  next : Links Addr
  queue : IntrusiveQueue Addr
  task : Addr → IoringTask
  pc : Pc
  headSeen : BitVec 32

/-- The steps of the call, and the kernel's. A completion function that
`__manual_stop` runs may submit the operations `pushes` locally. -/
inductive Label
  | loadTail
  | loadHead
  | publish
  | stop (pushes : List Addr)
  | storeTail
  | consume
deriving DecidableEq

/-- Local submissions by a completion function. -/
def pushAll (pushes : List Addr) (next : Links Addr) (queue : IntrusiveQueue Addr) :
    Links Addr × IntrusiveQueue Addr :=
  pushes.foldl (fun (next, queue) op => queue.pushFront next op) (next, queue)

/-- `__op->_M_submit(__sqe_[__m])`: the counter is set and the operation's
submit function writes the slot. -/
def submitTo (fill : Addr → Sqe → Sqe) (state : State) (op : Addr) (m : Nat) : State :=
  { state with
    ring := { state.ring with
      sqe := Function.update state.ring.sqe m (fill op (state.ring.sqe m)) }
    queue := (state.queue.popFront state.next).2
    task := Function.update state.task op (state.task op).submit }

/-- The loop's `__stop` after the operation wrote its opcode. -/
def stopAfter (stop : Bool) (opcode : BitVec 8) : Bool :=
  stop && opcode != IORING_OP_ASYNC_CANCEL

/-- The branch that hands the entry to the kernel. -/
def publishEntry (state : State) (op : Addr) (m : BitVec 32) : State :=
  { state with
    ring := { state.ring with
      sqe := Function.update state.ring.sqe m.toNat
        { state.ring.sqe m.toNat with userData := op }
      array := Function.update state.ring.array m.toNat m } }

/-- The branch that completes the operation with `-ECANCELED`. -/
def stopEntry (state : State) (op : Addr) (pushes : List Addr) : State :=
  { state with
    task := Function.update state.task op (IoringTask.manualStop op (state.task op))
    next := (pushAll pushes state.next state.queue).1
    queue := (pushAll pushes state.next state.queue).2 }

section Call

variable (shape : RingShape) (fill : Addr → Sqe → Sqe)

inductive Step : State → Label → State → Prop
  | loadTail {state : State} {max : BitVec 32} {stop : Bool}
      (pc : state.pc = .loadTail max stop) :
      Step state .loadTail { state with pc := .loadHead state.ring.tail max stop }
  | loadHead {state : State} {tail max : BitVec 32} {stop : Bool}
      (pc : state.pc = .loadHead tail max stop) :
      Step state .loadHead { state with
        pc := .loop tail 0 (umin max (shape.nSlot - (tail - state.ring.head))) stop
        headSeen := state.ring.head }
  | publish {state filled : State} {tail r max : BitVec 32} {stop : Bool} {op : Addr}
      (pc : state.pc = .loop tail r max stop)
      (busy : state.queue.isEmpty = false) (room : r < max)
      (popped : (state.queue.popFront state.next).1 = some op)
      (filled_eq : filled = submitTo fill state op (slot shape.mask tail))
      (goes : stopAfter stop (filled.ring.sqe (slot shape.mask tail)).opcode = false) :
      Step state .publish { publishEntry filled op (tail &&& shape.mask) with
        pc := .loop (tail + 1) (r + 1) max false }
  | stop {state filled : State} {tail r max : BitVec 32} {stop : Bool} {op : Addr}
      {pushes : List Addr}
      (pc : state.pc = .loop tail r max stop)
      (busy : state.queue.isEmpty = false) (room : r < max)
      (popped : (state.queue.popFront state.next).1 = some op)
      (filled_eq : filled = submitTo fill state op (slot shape.mask tail))
      (stays : stopAfter stop (filled.ring.sqe (slot shape.mask tail)).opcode = true) :
      Step state (.stop pushes) { stopEntry filled op pushes with
        pc := .loop tail r max true }
  | storeTail {state : State} {tail r max : BitVec 32} {stop : Bool}
      (pc : state.pc = .loop tail r max stop)
      (finished : state.queue.isEmpty = true ∨ ¬ r < max) :
      Step state .storeTail { state with
        ring := { state.ring with tail := tail }
        pc := .returned r }
  | consume {state : State} (available : state.ring.head ≠ state.ring.tail) :
      Step state .consume { state with
        ring := { state.ring with head := state.ring.head + 1 } }

def system (start : State) : System State Label where
  Init state := state = start
  Step := Step shape fill

/-- `_M_submit(queue, max, false)` is about to run on a queue that stands for
`ops`, and no more entries than slots are unconsumed. -/
structure Start (max : BitVec 32) (ops : List Addr) (start : State) : Prop where
  pc : start.pc = .loadTail max false
  window : start.ring.tail - start.ring.head ≤ shape.nSlot
  queue : start.queue.Represents start.next ops

/-- The slot holds an entry between two counters. -/
def Unconsumed (head tail : BitVec 32) (m : Nat) : Prop :=
  ∃ i < (tail - head).toNat, slot shape.mask (head + BitVec.ofNat 32 i) = m

/-- What a call that began in `start` guarantees in every state it reaches. -/
structure Safe (max : BitVec 32) (ops : List Addr) (start state : State) : Prop where
  /-- The slot the next iteration writes holds no entry the kernel has yet to
  consume, published or not. -/
  writesFree : ∀ tail r limit stop, state.pc = .loop tail r limit stop →
    state.queue.isEmpty = false → r < limit →
    ¬ Unconsumed shape state.ring.head tail (slot shape.mask tail)
  window : state.ring.tail - state.ring.head ≤ shape.nSlot
  count : ∀ r, state.pc = .returned r →
    r.toNat = min ops.length (min max.toNat
      (shape.nSlot - (start.ring.tail - state.headSeen)).toNat)
  tail : ∀ r, state.pc = .returned r → state.ring.tail = start.ring.tail + r
  published : ∀ r, state.pc = .returned r → ∀ i, i < r.toNat →
    let m := slot shape.mask (start.ring.tail + BitVec.ofNat 32 i)
    (state.ring.array m).toNat = m ∧ ∃ op, ops[i]? = some op ∧
      state.ring.sqe m = { fill op (start.ring.sqe m) with userData := op }
  kept : ∀ r, state.pc = .returned r → ∀ m,
    Unconsumed shape state.headSeen start.ring.tail m →
    state.ring.sqe m = start.ring.sqe m ∧ state.ring.array m = start.ring.array m
  rest : ∀ r, state.pc = .returned r → state.queue.Represents state.next (ops.drop r.toNat)

/-- The operation a slot of the index array leads to. -/
def Ring.operation (ring : Ring) (m : Nat) : Addr := (ring.sqe (ring.array m).toNat).userData

/-- The operations whose entries the kernel has yet to consume, in its order. -/
def Ring.entries (ring : Ring) : List Addr :=
  (List.range (ring.tail - ring.head).toNat).map fun i =>
    ring.operation (slot shape.mask (ring.head + BitVec.ofNat 32 i))

/-- Every entry the kernel has yet to consume leads to its own slot. -/
def Ring.Indexed (ring : Ring) : Prop :=
  ∀ m, Unconsumed shape ring.head ring.tail m → (ring.array m).toNat = m

/-- A bound on the steps the call itself still takes in normal mode. -/
def remaining (state : State) : Nat :=
  match state.pc with
  | .loadTail _ _ => 2 ^ 32 + 2
  | .loadHead _ _ _ => 2 ^ 32 + 1
  | .loop _ r max _ => max.toNat - r.toNat + 1
  | .returned _ => 0

/-- A call that has not returned can take a step of its own, and each of its
steps uses up the bound; the kernel's steps do not touch it. -/
structure Returns (state : State) : Prop where
  moves : (∀ r, state.pc ≠ .returned r) →
    ∃ label next, label ≠ .consume ∧ Step shape fill state label next
  bounded : ∀ label next, Step shape fill state label next →
    (label ≠ .consume → remaining next < remaining state) ∧
      (label = .consume → remaining next = remaining state)

variable {shape fill}

/-! ### Positions

`first` and `last` are the positions of the head and the tail when the call
begins, `seen` the position the loaded head stands for, and `taken` the number
of operations taken from the queue so far. -/

/-- What the loop has done after taking `taken` operations. -/
structure Progress (shape : RingShape) (fill : Addr → Sqe → Sqe) (ops : List Addr)
    (start : State) (first last seen taken : Nat) (state : State) : Prop where
  seenAfter : first ≤ seen
  seenBefore : seen ≤ last
  headSeen : state.headSeen = counter seen
  available : taken ≤ ops.length
  written : ∀ i < taken,
    (state.ring.array ((last + i) % shape.size)).toNat = (last + i) % shape.size ∧
      ∃ op, ops[i]? = some op ∧ state.ring.sqe ((last + i) % shape.size) =
        { fill op (start.ring.sqe ((last + i) % shape.size)) with userData := op }
  /-- The slots not written yet are as the call found them. -/
  unwritten : ∀ m, (∀ i < taken, (last + i) % shape.size ≠ m) →
    state.ring.sqe m = start.ring.sqe m
  kept : ∀ position, seen ≤ position → position < last →
    state.ring.sqe (position % shape.size) = start.ring.sqe (position % shape.size) ∧
      state.ring.array (position % shape.size) = start.ring.array (position % shape.size)
  queue : state.queue.Represents state.next (ops.drop taken)

/-- The ring and the queue are as the call found them. -/
structure Untouched (ops : List Addr) (start state : State) : Prop where
  sqe : state.ring.sqe = start.ring.sqe
  array : state.ring.array = start.ring.array
  queue : state.queue.Represents state.next ops

/-- The operations a call may take. -/
def limitFor (shape : RingShape) (max : BitVec 32) (last seen : Nat) : Nat :=
  min max.toNat (shape.size - (last - seen))

/-- Where the call stands, in terms of positions; `published` is the position
of the shared tail. -/
def AtPc (shape : RingShape) (fill : Addr → Sqe → Sqe) (max : BitVec 32) (ops : List Addr)
    (start : State) (first last published head : Nat) (state : State) : Prop :=
  match state.pc with
  | .loadTail limit stop =>
      limit = max ∧ stop = false ∧ published = last ∧ Untouched ops start state
  | .loadHead tail limit stop =>
      tail = counter last ∧ limit = max ∧ stop = false ∧ published = last ∧
        Untouched ops start state
  | .loop tail r limit stop => ∃ seen taken,
      seen ≤ head ∧ tail = counter (last + taken) ∧ r = counter taken ∧ stop = false ∧
        published = last ∧ limit.toNat = limitFor shape max last seen ∧
        taken ≤ limit.toNat ∧ Progress shape fill ops start first last seen taken state
  | .returned r => ∃ seen taken,
      seen ≤ head ∧ r = counter taken ∧ published = last + taken ∧
        taken = min ops.length (limitFor shape max last seen) ∧
        Progress shape fill ops start first last seen taken state

/-- The invariant of a call: the shared counters and the progress made. -/
def Inv (shape : RingShape) (fill : Addr → Sqe → Sqe) (max : BitVec 32) (ops : List Addr)
    (start : State) (first last : Nat) (state : State) : Prop :=
  ∃ head published, state.ring.head = counter head ∧ state.ring.tail = counter published ∧
    first ≤ head ∧ head ≤ published ∧
    AtPc shape fill max ops start first last published head state

theorem umin_toNat (left right : BitVec 32) :
    (umin left right).toNat = min left.toNat right.toNat := by
  unfold umin
  split_ifs with less
  · rw [BitVec.lt_def] at less
    omega
  · rw [BitVec.lt_def] at less
    omega

theorem limitFor_le_size (shape : RingShape) (max : BitVec 32) (last seen : Nat) :
    limitFor shape max last seen ≤ shape.size - (last - seen) := Nat.min_le_right _ _

theorem limitFor_lt (shape : RingShape) (max : BitVec 32) (last seen : Nat) :
    limitFor shape max last seen < 2 ^ 32 := by
  have bound := limitFor_le_size shape max last seen
  have small := shape.size_lt
  omega

theorem counter_toNat_of_lt {position : Nat} (small : position < 2 ^ 32) :
    (counter position).toNat = position := by
  rw [counter_toNat, Nat.mod_eq_of_lt small]

/-- Free slots as the loop computes them from the head it loaded. -/
theorem freeSlots_toNat {first last seen : Nat} (window : last - first ≤ shape.size)
    (after : first ≤ seen) (before : seen ≤ last) :
    (shape.nSlot - (counter last - counter seen)).toNat = shape.size - (last - seen) := by
  have small := shape.size_lt
  have distance : (counter last - counter seen).toNat = last - seen :=
    counter_sub before (by omega)
  rw [BitVec.toNat_sub, distance, shape.nSlot_toNat]
  omega

section Preservation

variable {max : BitVec 32} {ops : List Addr} {start state next : State} {first last : Nat}

/-- Taking one more operation: it is the next one of the queue, and its slot is
none of those already written or still to be consumed. -/
theorem Progress.publish {seen taken : Nat} {limit : BitVec 32}
    {op : Addr}
    (progress : Progress shape fill ops start first last seen taken state)
    (bounded : limit.toNat ≤ shape.size - (last - seen))
    (room : taken < limit.toNat) (busy : state.queue.isEmpty = false)
    (popped : (state.queue.popFront state.next).1 = some op) :
    Progress shape fill ops start first last seen (taken + 1)
      (publishEntry (submitTo fill state op (slot shape.mask (counter (last + taken)))) op
        (counter (last + taken) &&& shape.mask)) := by
  have slotEq : slot shape.mask (counter (last + taken)) = (last + taken) % shape.size :=
    slot_counter shape _
  have indexEq : (counter (last + taken) &&& shape.mask).toNat = (last + taken) % shape.size :=
    slotEq
  have more : taken < ops.length := by
    by_contra full
    have nothing : ops.drop taken = [] := List.drop_eq_nil_of_le (by omega)
    have empty := progress.queue.isEmpty_iff.mpr nothing
    simp [busy] at empty
  have split : ops.drop taken = ops[taken] :: ops.drop (taken + 1) :=
    List.drop_eq_getElem_cons more
  have queue := progress.queue
  rw [split] at queue
  obtain ⟨front, rest⟩ := queue.popFront
  have same : ops[taken] = op := Option.some.inj (front.symm.trans popped)
  have before := progress.seenBefore
  have fresh := progress.unwritten ((last + taken) % shape.size) fun i less =>
    mod_size_ne (by omega) (by omega)
  refine ⟨progress.seenAfter, progress.seenBefore, progress.headSeen, more, ?_, ?_, ?_, rest⟩
  · intro i less
    by_cases current : i = taken
    · subst i
      simp [publishEntry, submitTo, slotEq, indexEq, more, same, fresh]
    · have distinct : (last + i) % shape.size ≠ (last + taken) % shape.size :=
        mod_size_ne (by omega) (by omega)
      simpa [publishEntry, submitTo, slotEq, indexEq, Function.update_of_ne distinct] using
        progress.written i (by omega)
  · intro m unwritten
    have distinct : m ≠ (last + taken) % shape.size := (unwritten taken (by omega)).symm
    simpa [publishEntry, submitTo, slotEq, indexEq, Function.update_of_ne distinct] using
      progress.unwritten m fun i less => unwritten i (by omega)
  · intro position low high
    have distinct : position % shape.size ≠ (last + taken) % shape.size :=
      mod_size_ne (by omega) (by omega)
    simpa [publishEntry, submitTo, slotEq, indexEq, Function.update_of_ne distinct] using
      progress.kept position low high

/-- Steps that write only counters keep the progress made. -/
theorem Progress.frame {seen taken : Nat}
    (progress : Progress shape fill ops start first last seen taken state)
    (sqe : next.ring.sqe = state.ring.sqe) (array : next.ring.array = state.ring.array)
    (headSeen : next.headSeen = state.headSeen) (queue : next.queue = state.queue)
    (links : next.next = state.next) :
    Progress shape fill ops start first last seen taken next := by
  obtain ⟨after, before, head, available, written, unwritten, kept, represents⟩ := progress
  refine ⟨after, before, headSeen.trans head, available, ?_, ?_, ?_, ?_⟩
  · rw [sqe, array]
    exact written
  · rw [sqe]
    exact unwritten
  · rw [sqe, array]
    exact kept
  · rw [queue, links]
    exact represents

theorem inv_loadTail {limit : BitVec 32} {stop : Bool}
    (inv : Inv shape fill max ops start first last state) (pc : state.pc = .loadTail limit stop) :
    Inv shape fill max ops start first last
      { state with pc := .loadHead state.ring.tail limit stop } := by
  obtain ⟨head, published, headEq, tailEq, low, high, here⟩ := inv
  simp only [AtPc, pc] at here
  obtain ⟨same, normal, rfl, untouched⟩ := here
  exact ⟨head, published, headEq, tailEq, low, high, tailEq, same, normal, rfl,
    untouched.sqe, untouched.array, untouched.queue⟩

theorem inv_loadHead {tail limit : BitVec 32} {stop : Bool}
    (window : last - first ≤ shape.size)
    (inv : Inv shape fill max ops start first last state)
    (pc : state.pc = .loadHead tail limit stop) :
    Inv shape fill max ops start first last { state with
      pc := .loop tail 0 (umin limit (shape.nSlot - (tail - state.ring.head))) stop
      headSeen := state.ring.head } := by
  obtain ⟨head, published, headEq, tailEq, low, high, here⟩ := inv
  simp only [AtPc, pc] at here
  obtain ⟨rfl, rfl, rfl, rfl, untouched⟩ := here
  refine ⟨head, published, headEq, tailEq, low, high, head, 0, le_rfl, rfl, rfl, rfl, rfl,
    ?_, Nat.zero_le _, low, high, headEq, Nat.zero_le _, ?_, ?_, ?_, untouched.queue⟩
  · rw [umin_toNat, headEq, freeSlots_toNat window low high]
    rfl
  · intro i none
    exact absurd none (Nat.not_lt_zero i)
  · exact fun m _ => congrFun untouched.sqe m
  · intro position _ _
    exact ⟨congrFun untouched.sqe _, congrFun untouched.array _⟩

theorem inv_publish {filled : State} {tail r limit : BitVec 32} {stop : Bool} {op : Addr}
    (inv : Inv shape fill max ops start first last state)
    (pc : state.pc = .loop tail r limit stop) (busy : state.queue.isEmpty = false)
    (room : r < limit) (popped : (state.queue.popFront state.next).1 = some op)
    (filled_eq : filled = submitTo fill state op (slot shape.mask tail)) :
    Inv shape fill max ops start first last { publishEntry filled op (tail &&& shape.mask) with
      pc := .loop (tail + 1) (r + 1) limit false } := by
  obtain ⟨head, published, headEq, tailEq, low, high, here⟩ := inv
  simp only [AtPc, pc] at here
  obtain ⟨seen, taken, seenLe, rfl, rfl, rfl, rfl, limitEq, bounded, progress⟩ := here
  subst filled_eq
  have small : limit.toNat < 2 ^ 32 := limit.isLt
  have less : taken < limit.toNat := by
    rw [BitVec.lt_def, counter_toNat_of_lt (by omega)] at room
    exact room
  have fits : limit.toNat ≤ shape.size - (published - seen) :=
    limitEq ▸ limitFor_le_size _ _ _ _
  have more := progress.publish fits less busy popped
  exact ⟨head, published, headEq, tailEq, low, high, seen, taken + 1, seenLe,
    counter_succ _, counter_succ _, rfl, rfl, limitEq, less,
    more.frame rfl rfl rfl rfl rfl⟩

theorem inv_storeTail {tail r limit : BitVec 32} {stop : Bool}
    (inv : Inv shape fill max ops start first last state)
    (pc : state.pc = .loop tail r limit stop)
    (finished : state.queue.isEmpty = true ∨ ¬ r < limit) :
    Inv shape fill max ops start first last { state with
      ring := { state.ring with tail := tail }
      pc := .returned r } := by
  obtain ⟨head, published, headEq, tailEq, low, high, here⟩ := inv
  simp only [AtPc, pc] at here
  obtain ⟨seen, taken, seenLe, rfl, rfl, rfl, rfl, limitEq, bounded, progress⟩ := here
  have small : limit.toNat < 2 ^ 32 := limit.isLt
  have available := progress.available
  have exact : taken = min ops.length (limitFor shape max published seen) := by
    rcases finished with empty | full
    · have nothing := progress.queue.isEmpty_iff.mp empty
      have short : ops.length ≤ taken := List.drop_eq_nil_iff.mp nothing
      omega
    · rw [BitVec.lt_def, counter_toNat_of_lt (by omega)] at full
      omega
  exact ⟨head, published + taken, headEq, rfl, low, by omega, seen, taken, seenLe, rfl, rfl,
    exact, progress.frame rfl rfl rfl rfl rfl⟩

theorem inv_consume (inv : Inv shape fill max ops start first last state)
    (available : state.ring.head ≠ state.ring.tail) :
    Inv shape fill max ops start first last { state with
      ring := { state.ring with head := state.ring.head + 1 } } := by
  obtain ⟨head, published, headEq, tailEq, low, high, here⟩ := inv
  have behind : head < published := by
    refine lt_of_le_of_ne high fun same => available ?_
    rw [headEq, tailEq, same]
  refine ⟨head + 1, published, ?_, tailEq, by omega, behind, ?_⟩
  · simp only [headEq, counter_succ]
  · revert here
    unfold AtPc
    cases state.pc with
    | loadTail limit stop =>
        rintro ⟨same, normal, published, untouched⟩
        exact ⟨same, normal, published, untouched.sqe, untouched.array, untouched.queue⟩
    | loadHead tail limit stop =>
        rintro ⟨tailEq, same, normal, published, untouched⟩
        exact ⟨tailEq, same, normal, published, untouched.sqe, untouched.array,
          untouched.queue⟩
    | loop tail r limit stop =>
        rintro ⟨seen, taken, seenLe, tailEq, rEq, normal, published, limitEq, bounded, progress⟩
        exact ⟨seen, taken, by omega, tailEq, rEq, normal, published, limitEq, bounded,
          progress.frame rfl rfl rfl rfl rfl⟩
    | returned r =>
        rintro ⟨seen, taken, seenLe, rEq, published, takenEq, progress⟩
        exact ⟨seen, taken, by omega, rEq, published, takenEq,
          progress.frame rfl rfl rfl rfl rfl⟩

/-- No step of the call or of the kernel leaves the invariant. In normal mode
the `-ECANCELED` branch is never taken. -/
theorem inv_step {label : Label} (window : last - first ≤ shape.size)
    (inv : Inv shape fill max ops start first last state)
    (step : Step shape fill state label next) :
    Inv shape fill max ops start first last next := by
  cases step with
  | loadTail pc => exact inv_loadTail inv pc
  | loadHead pc => exact inv_loadHead window inv pc
  | publish pc busy room popped filled goes => exact inv_publish inv pc busy room popped filled
  | stop pc busy room popped filled stays =>
      obtain ⟨head, published, headEq, tailEq, low, high, here⟩ := inv
      simp only [AtPc, pc] at here
      obtain ⟨seen, taken, seenLe, tailEq, rEq, normal, rest⟩ := here
      simp [stopAfter, normal] at stays
  | storeTail pc finished => exact inv_storeTail inv pc finished
  | consume available => exact inv_consume inv available

theorem safe_of_inv (window : last - first ≤ shape.size)
    (tailEq : start.ring.tail = counter last)
    (inv : Inv shape fill max ops start first last state) :
    Safe shape fill max ops start state := by
  obtain ⟨head, published, headEq, sharedTail, low, high, here⟩ := inv
  have small := shape.size_lt
  refine ⟨?_, ?_, ?_, ?_, ?_, ?_, ?_⟩
  · rintro tail r limit stop pc busy room ⟨i, inside, same⟩
    simp only [AtPc, pc] at here
    obtain ⟨seen, taken, seenLe, rfl, rfl, rfl, rfl, limitEq, bounded, progress⟩ := here
    have fits := limitFor_le_size shape max published seen
    have limitSmall : limit.toNat < 2 ^ 32 := limit.isLt
    have before := progress.seenBefore
    have less : taken < limit.toNat := by
      rw [BitVec.lt_def, counter_toNat_of_lt (by omega)] at room
      exact room
    rw [headEq, counter_sub (by omega) (by omega)] at inside
    rw [headEq, counter_add, slot_counter, slot_counter] at same
    exact mod_size_ne (by omega) (by omega) same
  · have near : published - head ≤ shape.size := by
      revert here
      unfold AtPc
      cases state.pc with
      | loadTail limit stop =>
          rintro ⟨-, -, rfl, -⟩
          omega
      | loadHead tail limit stop =>
          rintro ⟨-, -, -, rfl, -⟩
          omega
      | loop tail r limit stop =>
          rintro ⟨-, -, -, -, -, -, rfl, -⟩
          omega
      | returned r =>
          rintro ⟨seen, taken, seenLe, -, rfl, takenEq, progress⟩
          have fits := limitFor_le_size shape max last seen
          have before := progress.seenBefore
          omega
    rw [BitVec.le_def, headEq, sharedTail, counter_sub high (by omega), shape.nSlot_toNat]
    exact near
  all_goals
    intro r pc
    simp only [AtPc, pc] at here
    obtain ⟨seen, taken, seenLe, rfl, rfl, takenEq, progress⟩ := here
    have takenSmall : taken < 2 ^ 32 := by
      have := limitFor_lt shape max last seen
      omega
    have before := progress.seenBefore
    have after := progress.seenAfter
  · rw [counter_toNat_of_lt takenSmall, tailEq, progress.headSeen,
      freeSlots_toNat window after before]
    exact takenEq
  · rw [sharedTail, tailEq]
    exact (counter_add _ _).symm
  · intro i less
    rw [counter_toNat_of_lt takenSmall] at less
    rw [tailEq, counter_add, slot_counter]
    exact progress.written i less
  · rintro m ⟨i, inside, rfl⟩
    rw [tailEq, progress.headSeen, counter_sub before (by omega)] at inside
    rw [progress.headSeen, counter_add, slot_counter]
    exact progress.kept (seen + i) (by omega) (by omega)
  · rw [counter_toNat_of_lt takenSmall]
    exact progress.queue

theorem returns_of_inv (inv : Inv shape fill max ops start first last state) :
    Returns shape fill state := by
  obtain ⟨head, published, headEq, sharedTail, low, high, here⟩ := inv
  refine ⟨fun running => ?_, fun label next step => ?_⟩
  · cases pc : state.pc with
    | loadTail limit stop => exact ⟨_, _, by simp, .loadTail pc⟩
    | loadHead tail limit stop => exact ⟨_, _, by simp, .loadHead pc⟩
    | returned r => exact absurd pc (running r)
    | loop tail r limit stop =>
        simp only [AtPc, pc] at here
        obtain ⟨-, -, -, -, -, rfl, -⟩ := here
        by_cases finished : state.queue.isEmpty = true ∨ ¬ r < limit
        · exact ⟨_, _, by simp, .storeTail pc finished⟩
        · obtain ⟨busy, room⟩ := not_or.mp finished
          obtain ⟨op, front⟩ : ∃ op, state.queue.head = some op := by
            simpa [IntrusiveQueue.isEmpty, Option.ne_none_iff_exists'] using busy
          exact ⟨_, _, by simp, .publish pc (by simpa using busy) (not_not.mp room)
            (by rw [IntrusiveQueue.popFront, front]) rfl rfl⟩
  · cases step with
    | loadTail pc => simp [remaining, pc]
    | @loadHead tail limit stop pc =>
        have bound := (umin limit (shape.nSlot - (tail - state.ring.head))).isLt
        refine ⟨fun _ => ?_, by simp⟩
        simp only [remaining, pc]
        omega
    | @publish filled tail r limit stop op pc busy room popped filledEq goes =>
        have after : (r + 1).toNat = r.toNat + 1 := by bv_omega
        refine ⟨fun _ => ?_, by simp⟩
        rw [BitVec.lt_def] at room
        simp only [remaining, pc, after]
        omega
    | stop pc busy room popped filled stays =>
        simp only [AtPc, pc] at here
        obtain ⟨-, -, -, -, -, rfl, -⟩ := here
        simp [stopAfter] at stays
    | storeTail pc finished => simp [remaining, pc]
    | consume available => simp [remaining]

end Preservation

theorem inv_start {max : BitVec 32} {ops : List Addr} {start : State} {first last : Nat}
    (begins : Start shape max ops start) (headEq : start.ring.head = counter first)
    (tailEq : start.ring.tail = counter last) (ordered : first ≤ last) :
    Inv shape fill max ops start first last start := by
  refine ⟨first, last, headEq, tailEq, le_rfl, ordered, ?_⟩
  simp only [AtPc, begins.pc]
  exact ⟨trivial, trivial, trivial, rfl, rfl, begins.queue⟩

theorem reachable_inv {max : BitVec 32} {ops : List Addr} {start state : State}
    (begins : Start shape max ops start)
    (reachable : (system shape fill start).Reachable state) :
    ∃ first last, start.ring.head = counter first ∧ start.ring.tail = counter last ∧
      first ≤ last ∧ last - first ≤ shape.size ∧
      Inv shape fill max ops start first last state := by
  rcases exists_positions start.ring.head start.ring.tail with
    ⟨first, last, headEq, tailEq, distance⟩
  have window : last - first ≤ shape.size := by
    have bound := begins.window
    rw [BitVec.le_def, shape.nSlot_toNat] at bound
    omega
  have ordered : first ≤ last := by omega
  refine ⟨first, last, headEq, tailEq, ordered, window, ?_⟩
  apply reachable.invariant (Inv shape fill max ops start first last)
  · intro state same
    subst same
    exact inv_start begins headEq tailEq ordered
  · intro before label after _ inv step
    exact inv_step window inv step

/-- A submission in normal mode is safe on the ring whatever its counters are
and whenever the kernel consumes, and it returns. -/
theorem submit_safe {max : BitVec 32} {ops : List Addr} {start state : State}
    (begins : Start shape max ops start)
    (reachable : (system shape fill start).Reachable state) :
    Safe shape fill max ops start state ∧ Returns shape fill state := by
  rcases reachable_inv begins reachable with ⟨first, last, headEq, tailEq, ordered, window, inv⟩
  exact ⟨safe_of_inv window tailEq inv, returns_of_inv inv⟩

/-! ### The entries of the ring -/

theorem entries_eq {ring : Ring} {first last : Nat} (headEq : ring.head = counter first)
    (tailEq : ring.tail = counter last) (ordered : first ≤ last) (near : last - first < 2 ^ 32) :
    ring.entries shape =
      window (fun position => ring.operation (position % shape.size)) first (last - first) := by
  unfold Ring.entries
  rw [headEq, tailEq, counter_sub ordered near]
  exact map_slots shape ring.operation first (last - first)

theorem Ring.Indexed.at {ring : Ring} {first last position : Nat} (indexed : ring.Indexed shape)
    (headEq : ring.head = counter first) (tailEq : ring.tail = counter last)
    (near : last - first < 2 ^ 32) (low : first ≤ position) (high : position < last) :
    (ring.array (position % shape.size)).toNat = position % shape.size := by
  apply indexed
  refine ⟨position - first, ?_, ?_⟩
  · rw [headEq, tailEq, counter_sub (by omega) near]
    omega
  · rw [headEq, counter_add, slot_counter]
    congr 1
    omega

/-- The entries from before the call are as they were. -/
theorem Progress.old {ops : List Addr} {start state : State}
    {first last seen taken position : Nat}
    (progress : Progress shape fill ops start first last seen taken state)
    (indexed : start.ring.Indexed shape) (headEq : start.ring.head = counter first)
    (tailEq : start.ring.tail = counter last) (near : last - first < 2 ^ 32)
    (low : seen ≤ position) (high : position < last) :
    (state.ring.array (position % shape.size)).toNat = position % shape.size ∧
      state.ring.operation (position % shape.size) =
        start.ring.operation (position % shape.size) := by
  rcases progress.kept position low high with ⟨sqe, array⟩
  have after := progress.seenAfter
  have own := indexed.at headEq tailEq near (by omega) high
  refine ⟨by rw [array, own], ?_⟩
  unfold Ring.operation
  rw [array, own, sqe]

/-- The entries the call wrote lead to the operations it took. -/
theorem Progress.new {ops : List Addr} {start state : State} {first last seen taken i : Nat}
    (progress : Progress shape fill ops start first last seen taken state) (less : i < taken) :
    (state.ring.array ((last + i) % shape.size)).toNat = (last + i) % shape.size ∧
      ops[i]? = some (state.ring.operation ((last + i) % shape.size)) := by
  rcases progress.written i less with ⟨own, op, here, slot⟩
  refine ⟨own, ?_⟩
  unfold Ring.operation
  rw [own, here, slot]

/-- What the ring shows after the call, when the kernel's head is at `head`. -/
theorem Progress.entries {ops : List Addr} {start state : State}
    {first last seen taken head : Nat}
    (progress : Progress shape fill ops start first last seen taken state)
    (indexed : start.ring.Indexed shape) (headEq : start.ring.head = counter first)
    (tailEq : start.ring.tail = counter last) (ordered : first ≤ last)
    (near : last - first ≤ shape.size) (fits : taken ≤ shape.size - (last - seen))
    (stateHead : state.ring.head = counter head)
    (stateTail : state.ring.tail = counter (last + taken))
    (low : seen ≤ head) (high : head ≤ last + taken) :
    state.ring.Indexed shape ∧
      state.ring.entries shape =
        (start.ring.entries shape ++ ops.take taken).drop (head - first) := by
  have small := shape.size_lt
  have before := progress.seenBefore
  have after := progress.seenAfter
  have kept := fun position (atLeast : head ≤ position) (below : position < last) =>
    progress.old indexed headEq tailEq (by omega) (Nat.le_trans low atLeast) below
  constructor
  · rintro m ⟨i, inside, same⟩
    rw [stateHead, stateTail, counter_sub high (by omega)] at inside
    rw [stateHead, counter_add, slot_counter] at same
    rw [← same]
    by_cases old : head + i < last
    · exact (kept (head + i) (by omega) old).1
    · have position : head + i = last + (head + i - last) := by omega
      rw [position]
      exact (progress.new (by omega)).1
  · have new : window (fun position => state.ring.operation (position % shape.size)) last taken =
        ops.take taken := window_eq_take fun i less => (progress.new less).2
    rw [entries_eq stateHead stateTail high (by omega),
      entries_eq headEq tailEq ordered (by omega), ← new]
    exact window_advance (by omega) ordered
      fun position atLeast below => (kept position atLeast below).2

section Entries

variable {max : BitVec 32} {ops : List Addr} {start state : State} {r : BitVec 32}

/-- On the ring as a list, a submission in normal mode appends the operations it
takes, and the kernel drops what it consumes meanwhile. -/
theorem submit_entries (begins : Start shape max ops start)
    (indexed : start.ring.Indexed shape)
    (reachable : (system shape fill start).Reachable state) (pc : state.pc = .returned r) :
    state.ring.Indexed shape ∧ ∃ consumed,
      state.ring.head = start.ring.head + BitVec.ofNat 32 consumed ∧
      state.ring.entries shape =
        (start.ring.entries shape ++ ops.take r.toNat).drop consumed := by
  have small := shape.size_lt
  rcases reachable_inv begins reachable with ⟨first, last, headEq, tailEq, ordered, near, inv⟩
  rcases inv with ⟨head, published, stateHead, stateTail, low, high, here⟩
  simp only [AtPc, pc] at here
  rcases here with ⟨seen, taken, seenLe, rEq, rfl, takenEq, progress⟩
  have fits := limitFor_le_size shape max last seen
  rcases progress.entries indexed headEq tailEq ordered near (by omega) stateHead stateTail
    seenLe high with ⟨own, entries⟩
  have count : r.toNat = taken := by rw [rEq, counter_toNat_of_lt (by omega)]
  refine ⟨own, head - first, ?_, count ▸ entries⟩
  rw [stateHead, headEq, counter_add, Nat.add_sub_cancel' low]

def undisturbed (shape : RingShape) (fill : Addr → Sqe → Sqe) (start : State) :
    System State Label :=
  (system shape fill start).restrict fun _ label => label ≠ .consume

theorem undisturbed_head (begins : Start shape max ops start)
    (reachable : (undisturbed shape fill start).Reachable state) :
    state.ring.head = start.ring.head ∧
      ((∃ limit stop, state.pc = .loadTail limit stop) ∨
        (∃ tail limit stop, state.pc = .loadHead tail limit stop) ∨
        state.headSeen = start.ring.head) := by
  apply reachable.invariant fun state => state.ring.head = start.ring.head ∧
    ((∃ limit stop, state.pc = .loadTail limit stop) ∨
      (∃ tail limit stop, state.pc = .loadHead tail limit stop) ∨
      state.headSeen = start.ring.head)
  · intro state same
    subst same
    exact ⟨rfl, .inl ⟨max, false, begins.pc⟩⟩
  · rintro state label next _ ⟨head, position⟩ ⟨quiet, step⟩
    cases step with
    | loadTail pc => exact ⟨head, .inr (.inl ⟨_, _, _, rfl⟩)⟩
    | loadHead pc => exact ⟨head, .inr (.inr head)⟩
    | publish pc busy room popped filled =>
        subst filled
        have loaded : state.headSeen = start.ring.head := by simpa [pc] using position
        exact ⟨head, .inr (.inr loaded)⟩
    | stop pc busy room popped filled =>
        subst filled
        have loaded : state.headSeen = start.ring.head := by simpa [pc] using position
        exact ⟨head, .inr (.inr loaded)⟩
    | storeTail pc =>
        have loaded : state.headSeen = start.ring.head := by simpa [pc] using position
        exact ⟨head, .inr (.inr loaded)⟩
    | consume => exact absurd rfl quiet

/-- Without consumption, a submission in normal mode appends as many operations
as the limit and the free slots allow. -/
theorem submit_undisturbed (begins : Start shape max ops start)
    (indexed : start.ring.Indexed shape)
    (reachable : (undisturbed shape fill start).Reachable state) (pc : state.pc = .returned r) :
    state.ring.Indexed shape ∧
      state.ring.entries shape = start.ring.entries shape ++ ops.take r.toNat ∧
      r.toNat = min ops.length
        (min max.toNat (shape.size - (start.ring.entries shape).length)) := by
  have small := shape.size_lt
  rcases undisturbed_head begins reachable with ⟨sameHead, position⟩
  have loaded : state.headSeen = start.ring.head := by simpa [pc] using position
  rcases reachable_inv begins reachable.of_restrict with
    ⟨first, last, headEq, tailEq, ordered, near, inv⟩
  rcases inv with ⟨head, published, stateHead, stateTail, low, high, here⟩
  simp only [AtPc, pc] at here
  rcases here with ⟨seen, taken, seenLe, rEq, rfl, takenEq, progress⟩
  have after := progress.seenAfter
  have before := progress.seenBefore
  have fits := limitFor_le_size shape max last seen
  have seenFirst : first = seen := by
    apply counter_inj after (by omega)
    rw [← headEq, ← loaded, progress.headSeen]
  subst seenFirst
  rcases progress.entries indexed headEq tailEq ordered near (by omega)
    (sameHead.trans headEq) stateTail (Nat.le_refl _) (by omega) with ⟨own, entries⟩
  have count : r.toNat = taken := by rw [rEq, counter_toNat_of_lt (by omega)]
  have length : (start.ring.entries shape).length = last - first := by
    rw [entries_eq headEq tailEq ordered (by omega), window_length]
  refine ⟨own, ?_, ?_⟩
  · rw [count, entries, Nat.sub_self, List.drop_zero]
  · rw [count, takenEq, length]
    rfl

end Entries

end Call

/-- Three operations queued on an empty ring whose counters are about to wrap. -/
def wrapStart : State where
  ring := ⟨4294967295, 4294967295, fun _ => 0, fun _ => ⟨0, 0⟩⟩
  next := fun op => if op = 10 then some 11 else if op = 11 then some 12 else none
  queue := ⟨some 10, some 12⟩
  task := fun _ => {}
  pc := .loadTail 5 false
  headSeen := 0

theorem wrapStart_start : Start RingShape.pair 5 [10, 11, 12] wrapStart where
  pc := rfl
  window := by decide
  queue := ⟨⟨rfl, rfl, rfl, rfl⟩, rfl⟩

/-- Operation 10 submits a read, the others a write. -/
def fillTransfer (op : Addr) (_ : Sqe) : Sqe := ⟨if op = 10 then 22 else 23, 0⟩

/-- Two of the three fit; the kernel takes the first entry of the full ring
before the call returns. -/
theorem submit_safe_wrap : ∃ state,
    (system RingShape.pair fillTransfer wrapStart).Reachable state ∧
      state.pc = .returned 2 ∧ state.ring.tail = 1 ∧
      state.ring.sqe 1 = ⟨22, 10⟩ ∧ state.ring.sqe 0 = ⟨23, 11⟩ ∧
      Safe RingShape.pair fillTransfer 5 [10, 11, 12] wrapStart state ∧
      Returns RingShape.pair fillTransfer state := by
  have start : (system RingShape.pair fillTransfer wrapStart).Reachable wrapStart := .init rfl
  have loaded := (start.step (.loadTail rfl)).step (.loadHead rfl)
  have first := loaded.step (.publish rfl rfl (by decide) rfl rfl rfl)
  have second := first.step (.publish rfl rfl (by decide) rfl rfl rfl)
  have stored := second.step (.storeTail rfl (.inr (by decide)))
  have consumed := stored.step (.consume (by decide))
  exact ⟨_, consumed, rfl, rfl, rfl, rfl, submit_safe wrapStart_start consumed⟩

end NgrCore.SubmissionQueue
