import Mathlib.Data.List.TakeWhile
import NgrCore.SubmissionQueue

/-!
Owns the calls of `_M_submit` with `__stop = true`. The loop overwrites `__stop` when it
meets the first `IORING_OP_ASYNC_CANCEL`, so it treats everything behind that one as in
normal mode.

Proves that such a call publishes the cancels and completes the others exactly when
nothing else is taken behind a cancel, and that it returns as long as the completion
functions it runs push nothing.
-/

namespace NgrCore.SubmissionQueue

open NgrCore.Library

/-- An operation taken from the queue, with the opcode its submit function wrote. -/
structure Taken where
  op : Addr
  opcode : BitVec 8
deriving Repr, DecidableEq

def Taken.isCancel (entry : Taken) : Bool := entry.opcode == IORING_OP_ASYNC_CANCEL

/-- What comes before the first cancel. -/
def beforeCancel (taken : List Taken) : List Taken := taken.takeWhile fun entry => !entry.isCancel

/-- The first cancel and what comes behind it. -/
def fromCancel (taken : List Taken) : List Taken := taken.dropWhile fun entry => !entry.isCancel

/-- Only cancels are taken behind a cancel. -/
def CancelsLast (taken : List Taken) : Prop := ∀ entry ∈ fromCancel taken, entry.isCancel = true

instance (taken : List Taken) : Decidable (CancelsLast taken) :=
  inferInstanceAs (Decidable (∀ entry ∈ fromCancel taken, _))

/-- The CQE that `__manual_stop` makes up. -/
def cancelledCqe (op : Addr) : Cqe := ⟨op, -ECANCELED, 0⟩

/-- A call, and for the proofs only, what it has taken from the queue. -/
structure Run where
  state : State
  taken : List Taken := []

section Call

variable (shape : RingShape) (fill : Addr → Sqe → Sqe)

/-- What a step takes from the queue. -/
def record (state : State) : Label → List Taken
  | .publish | .stop _ =>
      match state.pc, (state.queue.popFront state.next).1 with
      | .loop tail _ _ _, some op =>
          [⟨op, (fill op (state.ring.sqe (slot shape.mask tail))).opcode⟩]
      | _, _ => []
  | _ => []

/-- The steps of `_M_submit` and of the kernel, recorded. -/
inductive RunStep (run : Run) : Label → Run → Prop
  | step {label : Label} {next : State} (step : Step shape fill run.state label next) :
      RunStep run label { state := next, taken := run.taken ++ record shape fill run.state label }

def recorded (start : State) : System Run Label where
  Init run := run = { state := start }
  Step := RunStep shape fill

/-- `_M_submit(queue, max, true)` is about to run. -/
structure StopStart (max : BitVec 32) (start : State) : Prop where
  pc : start.pc = .loadTail max true
  window : start.ring.tail - start.ring.head ≤ shape.nSlot

/-- A finished call has published exactly the cancels it took, has completed every other
operation it took exactly once, and returns the number of cancels. -/
structure StopMode (start : State) (run : Run) (r : BitVec 32) : Prop where
  count : r.toNat = (run.taken.filter Taken.isCancel).length
  tail : run.state.ring.tail = start.ring.tail + r
  published : ∀ i entry, (run.taken.filter Taken.isCancel)[i]? = some entry →
    let m := slot shape.mask (start.ring.tail + BitVec.ofNat 32 i)
    (run.state.ring.array m).toNat = m ∧ run.state.ring.sqe m = ⟨entry.opcode, entry.op⟩
  completed : ∀ op, (run.state.task op).completed = (start.task op).completed ++
    List.replicate (run.taken.countP fun entry => !entry.isCancel && entry.op == op)
      (cancelledCqe op)

/-- The completion functions of the step push nothing. -/
def Pushless (label : Label) : Prop := ∀ pushes, label = .stop pushes → pushes = []

/-- A bound on the steps of a call with `ops` in the queue. -/
def stopRemaining (ops : List Addr) : Pc → Nat
  | .loadTail _ _ => ops.length + 3
  | .loadHead _ _ _ => ops.length + 2
  | .loop _ _ _ _ => ops.length + 1
  | .returned _ => 0

/-- A call that has not returned can take a step of its own, and while nothing is pushed
each of its steps uses up the bound; the kernel's steps do not touch it. -/
structure StopReturns (ops : List Addr) (state : State) : Prop where
  queue : state.queue.Represents state.next ops
  moves : (∀ r, state.pc ≠ .returned r) →
    ∃ label next, label ≠ .consume ∧ Pushless label ∧ Step shape fill state label next
  bounded : ∀ label next, Pushless label → Step shape fill state label next →
    ∃ rest, next.queue.Represents next.next rest ∧
      (label ≠ .consume → stopRemaining rest next.pc < stopRemaining ops state.pc) ∧
      (label = .consume → stopRemaining rest next.pc = stopRemaining ops state.pc)

end Call

section Lists

variable {taken : List Taken} {entry : Taken}

theorem beforeCancel_append_fromCancel (taken : List Taken) :
    beforeCancel taken ++ fromCancel taken = taken := List.takeWhile_append_dropWhile

theorem beforeCancel_not_isCancel (member : entry ∈ beforeCancel taken) :
    entry.isCancel = false := by
  simpa using List.mem_takeWhile_imp member

theorem fromCancel_of_none (none : fromCancel taken = []) : beforeCancel taken = taken := by
  have whole := beforeCancel_append_fromCancel taken
  rwa [none, List.append_nil] at whole

/-- A cancel, or anything behind one, is behind the first cancel. -/
theorem fromCancel_concat (behind : entry.isCancel = true ∨ fromCancel taken ≠ []) :
    fromCancel (taken ++ [entry]) = fromCancel taken ++ [entry] ∧
      beforeCancel (taken ++ [entry]) = beforeCancel taken := by
  induction taken with
  | nil =>
      have cancel : entry.isCancel = true := by simpa [fromCancel] using behind
      simp [fromCancel, beforeCancel, cancel]
  | cons first rest inductionHypothesis =>
      by_cases cancel : first.isCancel = true
      · simp [fromCancel, beforeCancel, cancel]
      · have later : entry.isCancel = true ∨ fromCancel rest ≠ [] := by
          simpa [fromCancel, cancel] using behind
        have tail := inductionHypothesis later
        simpa [fromCancel, beforeCancel, cancel] using tail

theorem beforeCancel_concat (none : fromCancel taken = []) (other : entry.isCancel = false) :
    fromCancel (taken ++ [entry]) = [] ∧
      beforeCancel (taken ++ [entry]) = beforeCancel taken ++ [entry] := by
  have whole := fromCancel_of_none none
  have all : ∀ e ∈ taken, e.isCancel = false := fun e member =>
    beforeCancel_not_isCancel (whole.symm ▸ member)
  have more : ∀ e ∈ taken ++ [entry], e.isCancel = false := by
    intro e member
    rcases List.mem_append.mp member with earlier | last
    · exact all e earlier
    · exact (List.mem_singleton.mp last) ▸ other
  have nothing : fromCancel (taken ++ [entry]) = [] := by
    rw [fromCancel, List.dropWhile_eq_nil_iff]
    exact fun e member => by simp [more e member]
  exact ⟨nothing, by rw [fromCancel_of_none nothing, whole]⟩

/-- The cancels are all behind the first of them, and they are everything there exactly
when nothing else is. -/
theorem filter_isCancel_eq_iff : taken.filter Taken.isCancel = fromCancel taken ↔
    CancelsLast taken := by
  have early : (beforeCancel taken).filter Taken.isCancel = [] := by
    rw [List.filter_eq_nil_iff]
    exact fun entry member => by simp [beforeCancel_not_isCancel member]
  have split : taken.filter Taken.isCancel = (fromCancel taken).filter Taken.isCancel := by
    conv_lhs => rw [← beforeCancel_append_fromCancel taken]
    rw [List.filter_append, early, List.nil_append]
  rw [split, List.filter_eq_self]
  rfl

theorem cancelsLast_of_length
    (length : (fromCancel taken).length = (taken.filter Taken.isCancel).length) :
    CancelsLast taken := by
  have early : (beforeCancel taken).filter Taken.isCancel = [] := by
    rw [List.filter_eq_nil_iff]
    exact fun entry member => by simp [beforeCancel_not_isCancel member]
  have split : taken.filter Taken.isCancel = (fromCancel taken).filter Taken.isCancel := by
    conv_lhs => rw [← beforeCancel_append_fromCancel taken]
    rw [List.filter_append, early, List.nil_append]
  rw [split] at length
  exact List.length_filter_eq_length_iff.mp length.symm

/-- What is completed is what comes before the first cancel. -/
theorem countP_beforeCancel (last : CancelsLast taken) (op : Addr) :
    (beforeCancel taken).countP (fun entry => entry.op == op) =
      taken.countP fun entry => !entry.isCancel && entry.op == op := by
  conv_rhs => rw [← beforeCancel_append_fromCancel taken]
  have none : (fromCancel taken).countP (fun entry => !entry.isCancel && entry.op == op) = 0 := by
    rw [List.countP_eq_zero]
    exact fun entry member => by simp [last entry member]
  rw [List.countP_append, none, Nat.add_zero]
  refine List.countP_congr fun entry member => ?_
  simp [beforeCancel_not_isCancel member]

end Lists

section Preservation

variable {shape : RingShape} {fill : Addr → Sqe → Sqe} {max : BitVec 32} {start : State}
  {run : Run} {first last : Nat}

/-- What the loop has done: what it took from the first cancel on is in the ring, what it
took before has been completed. -/
structure Treated (shape : RingShape) (start : State) (last : Nat) (run : Run) : Prop where
  written : ∀ i entry, (fromCancel run.taken)[i]? = some entry →
    (run.state.ring.array ((last + i) % shape.size)).toNat = (last + i) % shape.size ∧
      run.state.ring.sqe ((last + i) % shape.size) = ⟨entry.opcode, entry.op⟩
  completed : ∀ op, (run.state.task op).completed = (start.task op).completed ++
    List.replicate ((beforeCancel run.taken).countP fun entry => entry.op == op)
      (cancelledCqe op)

/-- The call has not begun to take operations. -/
structure Waiting (start : State) (first last : Nat) (run : Run) : Prop where
  head : ∃ head, run.state.ring.head = counter head ∧ first ≤ head ∧ head ≤ last
  tail : run.state.ring.tail = counter last
  taken : run.taken = []
  task : run.state.task = start.task

def StopInv (shape : RingShape) (max : BitVec 32) (start : State) (first last : Nat)
    (state : State) (taken : List Taken) : Prop :=
  match state.pc with
  | .loadTail limit stop => limit = max ∧ stop = true ∧ Waiting start first last ⟨state, taken⟩
  | .loadHead tail limit stop =>
      tail = counter last ∧ limit = max ∧ stop = true ∧ Waiting start first last ⟨state, taken⟩
  | .loop tail r limit stop =>
      tail = counter (last + (fromCancel taken).length) ∧
        r = counter (fromCancel taken).length ∧ limit.toNat ≤ shape.size ∧
        (fromCancel taken).length ≤ limit.toNat ∧
        stop = (fromCancel taken).isEmpty ∧ Treated shape start last ⟨state, taken⟩
  | .returned r =>
      state.ring.tail = counter (last + (fromCancel taken).length) ∧
        r = counter (fromCancel taken).length ∧
        (fromCancel taken).length ≤ shape.size ∧ Treated shape start last ⟨state, taken⟩

theorem record_take {state : State} {tail r limit : BitVec 32} {stop : Bool} {op : Addr}
    {label : Label} (pc : state.pc = .loop tail r limit stop)
    (popped : (state.queue.popFront state.next).1 = some op)
    (takes : label = .publish ∨ ∃ pushes, label = .stop pushes) :
    record shape fill state label =
      [⟨op, (fill op (state.ring.sqe (slot shape.mask tail))).opcode⟩] := by
  rcases takes with rfl | ⟨pushes, rfl⟩ <;> simp [record, pc, popped]

theorem submitTo_opcode (state : State) (op : Addr) (m : Nat) :
    ((submitTo fill state op m).ring.sqe m).opcode = (fill op (state.ring.sqe m)).opcode := by
  simp [submitTo]

/-- An entry is handed to the kernel: a cancel, or anything once `__stop` is cleared. -/
theorem Treated.publish {state : State} {taken : List Taken} {op : Addr} {count : Nat}
    (treated : Treated shape start last ⟨state, taken⟩)
    (length : (fromCancel taken).length = count) (fits : count < shape.size)
    (behind : ((⟨op, (fill op (state.ring.sqe (slot shape.mask (counter (last + count))))).opcode⟩ :
      Taken)).isCancel = true ∨ fromCancel taken ≠ []) {pc : Pc} :
    Treated shape start last
      { state := { publishEntry (submitTo fill state op (slot shape.mask (counter (last + count))))
          op (counter (last + count) &&& shape.mask) with pc := pc }
        taken := taken ++
          [⟨op, (fill op (state.ring.sqe (slot shape.mask
            (counter (last + count))))).opcode⟩] } := by
  obtain ⟨grown, kept⟩ := fromCancel_concat behind
  have slotEq : slot shape.mask (counter (last + count)) = (last + count) % shape.size :=
    slot_counter shape _
  have indexEq : (counter (last + count) &&& shape.mask).toNat = (last + count) % shape.size :=
    slotEq
  constructor
  · intro i entry here
    change (fromCancel (taken ++ _))[i]? = some entry at here
    rw [grown] at here
    by_cases current : i = count
    · subst current
      have newest := List.getElem?_concat_length (l := fromCancel taken) (a := (⟨op, (fill op
        (state.ring.sqe (slot shape.mask (counter (last + i))))).opcode⟩ : Taken))
      rw [length, here] at newest
      cases newest
      simp [publishEntry, submitTo, slotEq, indexEq]
    · have inside : i < (fromCancel taken).length := by
        have bound := (List.getElem?_eq_some_iff.mp here).1
        rw [List.length_append, List.length_singleton] at bound
        omega
      rw [List.getElem?_append_left inside] at here
      have distinct : (last + i) % shape.size ≠ (last + count) % shape.size :=
        mod_size_ne (by omega) (by omega)
      simpa [publishEntry, submitTo, slotEq, indexEq, Function.update_of_ne distinct] using
        treated.written i entry here
  · intro other
    change _ = _ ++ List.replicate ((beforeCancel (taken ++ _)).countP _) _
    rw [kept]
    by_cases same : other = op
    · subst same
      simpa [publishEntry, submitTo, IoringTask.submit] using treated.completed other
    · simpa [publishEntry, submitTo, Function.update_of_ne same] using treated.completed other

/-- An operation is completed while no cancel has been met. -/
theorem Treated.stop {state : State} {taken : List Taken} {op : Addr} {m : Nat}
    {pushes : List Addr} (treated : Treated shape start last ⟨state, taken⟩)
    (none : fromCancel taken = [])
    (other : (⟨op, (fill op (state.ring.sqe m)).opcode⟩ : Taken).isCancel = false) {pc : Pc} :
    Treated shape start last
      { state := { stopEntry (submitTo fill state op m) op pushes with pc := pc }
        taken := taken ++ [⟨op, (fill op (state.ring.sqe m)).opcode⟩] } := by
  obtain ⟨still, grown⟩ := beforeCancel_concat none other
  constructor
  · intro i entry here
    change (fromCancel (taken ++ _))[i]? = some entry at here
    rw [still] at here
    cases here
  · intro another
    change _ = _ ++ List.replicate ((beforeCancel (taken ++ _)).countP _) _
    rw [grown, List.countP_append]
    by_cases same : another = op
    · subst same
      have before := treated.completed another
      simp [stopEntry, submitTo, IoringTask.submit, IoringTask.manualStop_eq,
        List.replicate_succ', cancelledCqe] at before ⊢
      simp [before]
    · have apart : ¬ op = another := fun equal => same equal.symm
      simpa [stopEntry, submitTo, Function.update_of_ne same, apart] using
        treated.completed another

theorem Treated.frame {state other : State} {taken : List Taken}
    (treated : Treated shape start last ⟨state, taken⟩) (sqe : other.ring.sqe = state.ring.sqe)
    (array : other.ring.array = state.ring.array) (task : other.task = state.task) :
    Treated shape start last ⟨other, taken⟩ := by
  obtain ⟨written, completed⟩ := treated
  exact ⟨by rw [sqe, array]; exact written, by rw [task]; exact completed⟩

theorem StopInv.step {state next : State} {taken : List Taken} {label : Label}
    (window : last - first ≤ shape.size) (inv : StopInv shape max start first last state taken)
    (step : Step shape fill state label next) :
    StopInv shape max start first last next (taken ++ record shape fill state label) := by
  have small := shape.size_lt
  cases step with
  | loadTail pc =>
      simp only [StopInv, pc] at inv
      obtain ⟨rfl, rfl, waiting⟩ := inv
      exact ⟨waiting.tail, rfl, rfl, waiting.head, waiting.tail,
        by simpa [record] using waiting.taken, waiting.task⟩
  | loadHead pc =>
      simp only [StopInv, pc] at inv
      obtain ⟨rfl, rfl, rfl, ⟨head, headEq, low, high⟩, tail, none, task⟩ := inv
      change taken = [] at none
      subst none
      refine ⟨rfl, rfl, ?_, Nat.zero_le _, rfl, ?_, ?_⟩
      · rw [umin_toNat, headEq, freeSlots_toNat window low high]
        omega
      · intro i entry here
        cases here
      · intro op
        change (state.task op).completed = _
        rw [task]
        simp [record, beforeCancel]
  | @publish filled tail r limit stop op pc busy room popped filledEq goes =>
      simp only [StopInv, pc] at inv
      obtain ⟨rfl, rfl, fits, bounded, rfl, treated⟩ := inv
      subst filledEq
      rw [BitVec.lt_def, counter_toNat_of_lt (by omega)] at room
      rw [submitTo_opcode] at goes
      rw [record_take pc popped (.inl rfl)]
      have behind : ((⟨op, (fill op (state.ring.sqe
          (slot shape.mask (counter (last + (fromCancel taken).length))))).opcode⟩ :
          Taken)).isCancel = true ∨ fromCancel taken ≠ [] := by
        by_cases none : fromCancel taken = []
        · refine .inl ?_
          simpa [stopAfter, none, Taken.isCancel] using goes
        · exact .inr none
      have grown : (fromCancel (taken ++ [⟨op, (fill op (state.ring.sqe
          (slot shape.mask (counter (last + (fromCancel taken).length))))).opcode⟩])).length =
          (fromCancel taken).length + 1 := by
        rw [(fromCancel_concat behind).1, List.length_append, List.length_singleton]
      refine ⟨?_, ?_, fits, ?_, ?_, treated.publish rfl (by omega) behind⟩
      · rw [grown, counter_succ]
        rfl
      · rw [grown, counter_succ]
      · rw [grown]
        exact room
      · rw [(fromCancel_concat behind).1]
        simp
  | @stop filled tail r limit stop op pushes pc busy room popped filledEq stays =>
      simp only [StopInv, pc] at inv
      obtain ⟨rfl, rfl, fits, bounded, rfl, treated⟩ := inv
      subst filledEq
      rw [submitTo_opcode] at stays
      rw [record_take pc popped (.inr ⟨pushes, rfl⟩)]
      have stopping : (fromCancel taken).isEmpty = true ∧
          ((⟨op, (fill op (state.ring.sqe
            (slot shape.mask (counter (last + (fromCancel taken).length))))).opcode⟩ :
            Taken)).isCancel = false := by
        simpa [stopAfter, Taken.isCancel] using stays
      have none : fromCancel taken = [] := List.isEmpty_iff.mp stopping.1
      have still := (beforeCancel_concat none stopping.2).1
      refine ⟨?_, ?_, fits, ?_, ?_, treated.stop none stopping.2⟩
      · rw [still, none]
      · rw [still, none]
      · rw [still]
        exact Nat.zero_le _
      · rw [still]
        rfl
  | storeTail pc finished =>
      simp only [StopInv, pc] at inv
      obtain ⟨rfl, rfl, fits, bounded, rfl, treated⟩ := inv
      simp only [record, List.append_nil]
      exact ⟨rfl, rfl, Nat.le_trans bounded fits, treated.frame rfl rfl rfl⟩
  | consume available =>
      simp only [record, List.append_nil]
      have advance : Waiting start first last ⟨state, taken⟩ → ∀ pc, Waiting start first last
          ⟨{ state with ring := { state.ring with head := state.ring.head + 1 }, pc := pc },
            taken⟩ := by
        rintro ⟨⟨head, headEq, low, high⟩, tail, none, task⟩ pc
        have behind : head ≠ last := by
          rintro rfl
          exact available (headEq.trans tail.symm)
        exact ⟨⟨head + 1, by rw [headEq, counter_succ], by omega, by omega⟩, tail, none, task⟩
      revert inv
      unfold StopInv
      cases pc : state.pc with
      | loadTail limit stop =>
          rintro ⟨same, mode, waiting⟩
          exact ⟨same, mode, advance waiting _⟩
      | loadHead tail limit stop =>
          rintro ⟨tailEq, same, mode, waiting⟩
          exact ⟨tailEq, same, mode, advance waiting _⟩
      | loop tail r limit stop =>
          rintro ⟨tailEq, count, fits, bounded, mode, treated⟩
          exact ⟨tailEq, count, fits, bounded, mode, treated.frame rfl rfl rfl⟩
      | returned r =>
          rintro ⟨tailEq, count, fits, treated⟩
          exact ⟨tailEq, count, fits, treated.frame rfl rfl rfl⟩

theorem stopInv_of_reachable (begins : StopStart shape max start)
    (reachable : (recorded shape fill start).Reachable run) :
    ∃ first last, start.ring.tail = counter last ∧
      StopInv shape max start first last run.state run.taken := by
  rcases exists_positions start.ring.head start.ring.tail with
    ⟨first, last, headEq, tailEq, distance⟩
  have window : last - first ≤ shape.size := by
    have bound := begins.window
    rw [BitVec.le_def, shape.nSlot_toNat] at bound
    omega
  refine ⟨first, last, tailEq, ?_⟩
  apply reachable.invariant fun run => StopInv shape max start first last run.state run.taken
  · rintro _ rfl
    simp only [StopInv, begins.pc]
    exact ⟨trivial, trivial, ⟨first, headEq, Nat.le_refl _, by omega⟩, tailEq, rfl, rfl⟩
  · rintro before label after _ inv ⟨step⟩
    exact inv.step window step

/-- A call in stop mode that has not returned can take a step of its own. -/
theorem stop_moves (state : State) (running : ∀ r, state.pc ≠ .returned r) :
    ∃ label next, label ≠ .consume ∧ Pushless label ∧ Step shape fill state label next := by
  cases pc : state.pc with
  | loadTail limit stop => exact ⟨_, _, by simp, by simp [Pushless], .loadTail pc⟩
  | loadHead tail limit stop => exact ⟨_, _, by simp, by simp [Pushless], .loadHead pc⟩
  | returned r => exact absurd pc (running r)
  | loop tail r limit stop =>
      by_cases finished : state.queue.isEmpty = true ∨ ¬ r < limit
      · exact ⟨_, _, by simp, by simp [Pushless], .storeTail pc finished⟩
      · obtain ⟨busy, room⟩ := not_or.mp finished
        obtain ⟨op, front⟩ : ∃ op, state.queue.head = some op := by
          simpa [IntrusiveQueue.isEmpty, Option.ne_none_iff_exists'] using busy
        have popped : (state.queue.popFront state.next).1 = some op := by
          rw [IntrusiveQueue.popFront, front]
        cases branch : stopAfter stop
            ((submitTo fill state op (slot shape.mask tail)).ring.sqe
              (slot shape.mask tail)).opcode with
        | false =>
            exact ⟨_, _, by simp, by simp [Pushless],
              .publish pc (by simpa using busy) (not_not.mp room) popped rfl branch⟩
        | true =>
            exact ⟨.stop [], _, by simp, by simp [Pushless],
              .stop pc (by simpa using busy) (not_not.mp room) popped rfl branch⟩

/-- An iteration of the loop takes the first operation off the queue. -/
theorem exists_rest {state : State} {ops : List Addr}
    (queue : state.queue.Represents state.next ops) (busy : state.queue.isEmpty = false) :
    ∃ op rest, ops = op :: rest ∧
      (state.queue.popFront state.next).2.Represents state.next rest := by
  cases ops with
  | nil => simp [queue.isEmpty_iff.mpr rfl] at busy
  | cons op rest => exact ⟨op, rest, rfl, queue.popFront.2⟩

theorem Step.usesUp {label : Label} {ops : List Addr}
    (step : Step shape fill state label next) (pushless : Pushless label)
    (queue : state.queue.Represents state.next ops) :
    ∃ rest, next.queue.Represents next.next rest ∧
      (label ≠ .consume → stopRemaining rest next.pc < stopRemaining ops state.pc) ∧
      (label = .consume → stopRemaining rest next.pc = stopRemaining ops state.pc) := by
  cases step with
  | loadTail pc => exact ⟨ops, queue, by simp [stopRemaining, pc], by simp⟩
  | loadHead pc => exact ⟨ops, queue, by simp [stopRemaining, pc], by simp⟩
  | publish pc busy room popped filled goes =>
      subst filled
      obtain ⟨op, rest, rfl, shorter⟩ := exists_rest queue busy
      exact ⟨rest, shorter, by simp [stopRemaining, pc], by simp⟩
  | @stop filled tail r limit stop op pushes pc busy room popped filled stays =>
      subst filled
      have none : pushes = [] := pushless pushes rfl
      subst none
      obtain ⟨op, rest, rfl, shorter⟩ := exists_rest queue busy
      exact ⟨rest, shorter, by simp [stopRemaining, pc], by simp⟩
  | storeTail pc finished => exact ⟨ops, queue, by simp [stopRemaining, pc], by simp⟩
  | consume available => exact ⟨ops, queue, by simp, fun _ => rfl⟩

/-- A call in stop mode returns, as long as the completion functions it runs push nothing:
what they push, the call takes too. -/
theorem stop_returns {ops : List Addr} (queued : start.queue.Represents start.next ops)
    (reachable : ((system shape fill start).restrict
      fun _ label => Pushless label).Reachable state) :
    ∃ rest, StopReturns shape fill rest state := by
  obtain ⟨rest, queue⟩ : ∃ rest, state.queue.Represents state.next rest := by
    apply reachable.invariant fun state => ∃ rest, state.queue.Represents state.next rest
    · rintro state rfl
      exact ⟨ops, queued⟩
    · rintro before label after _ ⟨rest, queue⟩ ⟨pushless, step⟩
      obtain ⟨shorter, queue, _⟩ := step.usesUp pushless queue
      exact ⟨shorter, queue⟩
  exact ⟨rest, queue, stop_moves state, fun _ _ pushless step => step.usesUp pushless queue⟩

/-- A call in stop mode publishes the cancels it takes and completes the others exactly
when it takes nothing else behind a cancel. -/
theorem stop_mode_iff {r : BitVec 32} (begins : StopStart shape max start)
    (reachable : (recorded shape fill start).Reachable run)
    (pc : run.state.pc = .returned r) :
    StopMode shape start run r ↔ CancelsLast run.taken := by
  obtain ⟨first, last, tailEq, inv⟩ := stopInv_of_reachable begins reachable
  simp only [StopInv, pc] at inv
  obtain ⟨tail, rfl, fits, treated⟩ := inv
  have small := shape.size_lt
  have count : (counter (fromCancel run.taken).length).toNat = (fromCancel run.taken).length :=
    counter_toNat_of_lt (by omega)
  constructor
  · intro mode
    exact cancelsLast_of_length (count.symm.trans mode.count)
  · intro cancels
    have same := filter_isCancel_eq_iff.mpr cancels
    refine ⟨by rw [count, same], ?_, ?_, ?_⟩
    · rw [tail, tailEq]
      exact (counter_add _ _).symm
    · intro i entry here
      rw [same] at here
      rw [tailEq, counter_add, slot_counter]
      exact treated.written i entry here
    · intro op
      rw [treated.completed op, countP_beforeCancel cancels]

end Preservation

/-- Operation 10 submits an `IORING_OP_ASYNC_CANCEL`. -/
def fillCancel (op : Addr) (_ : Sqe) : Sqe := ⟨if op = 10 then IORING_OP_ASYNC_CANCEL else 22, 0⟩

/-- Two operations queued on an empty ring. -/
def stopStart (front back : Addr) : State where
  ring := ⟨0, 0, fun _ => 0, fun _ => ⟨0, 0⟩⟩
  next := fun op => if op = front then some back else none
  queue := ⟨some front, some back⟩
  task := fun _ => {}
  pc := .loadTail 5 true
  headSeen := 0

/-- A cancel behind another operation. -/
theorem stop_mode_cancel_last : ∃ run,
    (recorded RingShape.pair fillCancel (stopStart 11 10)).Reachable run ∧
      StopMode RingShape.pair (stopStart 11 10) run 1 := by
  have start : (recorded RingShape.pair fillCancel (stopStart 11 10)).Reachable
      { state := stopStart 11 10 } := .init rfl
  have loaded := (start.step ⟨.loadTail rfl⟩).step ⟨.loadHead rfl⟩
  have stopped := loaded.step
    ⟨show Step _ _ _ (.stop []) _ from .stop rfl rfl (by decide) rfl rfl rfl⟩
  have cancelled := stopped.step ⟨.publish rfl rfl (by decide) rfl rfl rfl⟩
  have stored := cancelled.step ⟨.storeTail rfl (.inl rfl)⟩
  exact ⟨_, stored, (stop_mode_iff ⟨rfl, by decide⟩ stored rfl).mpr (by decide)⟩

/-- A cancel in front of another operation: both are published. -/
theorem published_behind_cancel : ¬ ∀ run r,
    (recorded RingShape.pair fillCancel (stopStart 10 11)).Reachable run →
      run.state.pc = .returned r → StopMode RingShape.pair (stopStart 10 11) run r := by
  intro every
  have start : (recorded RingShape.pair fillCancel (stopStart 10 11)).Reachable
      { state := stopStart 10 11 } := .init rfl
  have loaded := (start.step ⟨.loadTail rfl⟩).step ⟨.loadHead rfl⟩
  have cancelled := loaded.step ⟨.publish rfl rfl (by decide) rfl rfl rfl⟩
  have published := cancelled.step ⟨.publish rfl rfl (by decide) rfl rfl rfl⟩
  have stored := published.step ⟨.storeTail rfl (.inl rfl)⟩
  have count := (every _ _ stored rfl).count
  revert count
  decide

end NgrCore.SubmissionQueue
