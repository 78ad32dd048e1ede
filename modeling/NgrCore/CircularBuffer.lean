import NgrCore.Library.RingCounter
import NgrCore.Library.Simulation

/-!
Owns `__circular_buffer` and the subranges taken from it, and its refinement of a FIFO
queue. The slots are chosen by masking free-running 32-bit counters; elements are stored
through the references that `_M_push_back` and `_M_front` return.
-/

namespace NgrCore

open NgrCore.Library

universe u

variable {α : Type u} {Np : BitVec 32}

structure CircularBuffer (α : Type u) (Np : BitVec 32) where
  storage : Nat → α
  head : BitVec 32 := 0
  tail : BitVec 32 := 0

namespace CircularBuffer

/-- `__monotonic_prefix_subrange`; the buffer is passed to its members. -/
structure Subrange where
  ends : BitVec 32
deriving Repr, DecidableEq

/-- `_M_data`: the slot of a counter. -/
def data (_ : CircularBuffer α Np) (n : BitVec 32) : Nat := slot (Np - 1) n

/-- `_M_push_back`: the slot of the reference returned. -/
def pushBack (buffer : CircularBuffer α Np) : Nat × CircularBuffer α Np :=
  (buffer.data buffer.tail, { buffer with tail := buffer.tail + 1 })

/-- An assignment through a reference. -/
def store (buffer : CircularBuffer α Np) (reference : Nat) (value : α) : CircularBuffer α Np :=
  { buffer with storage := Function.update buffer.storage reference value }

/-- The loop of `_M_consume_front_while`. -/
def scan (buffer : CircularBuffer α Np) (fn : α → Bool) (h : BitVec 32) : BitVec 32 :=
  if h ≠ buffer.tail ∧ fn (buffer.storage (buffer.data h)) = true then scan buffer fn (h + 1)
  else h
termination_by (buffer.tail - h).toNat
decreasing_by bv_omega

def consumeFrontWhile (buffer : CircularBuffer α Np) (fn : α → Bool) : Subrange :=
  ⟨buffer.scan fn buffer.head⟩

/-- `_M_consume_swap`, in a build where its assertion that the buffer is not empty is
checked or in one where it is not. -/
def consumeSwap (buffer : CircularBuffer α Np) : Subrange := ⟨buffer.tail⟩

namespace Subrange

def popFront (_ : Subrange) (buffer : CircularBuffer α Np) : CircularBuffer α Np :=
  { buffer with head := buffer.head + 1 }

/-- `_M_front`: the slot of the reference returned. -/
def front (_ : Subrange) (buffer : CircularBuffer α Np) : Nat := buffer.data buffer.head

def isEmpty (subrange : Subrange) (buffer : CircularBuffer α Np) : Bool :=
  buffer.head == subrange.ends

end Subrange

/-! ### The queue -/

inductive Event (α : Type u)
  | pushBack
  | store (i : Nat) (value : α)
  | consumeFrontWhile (fn : α → Bool)
  | consumeSwap
  | isEmpty (answer : Bool)
  | front (value : α)
  | storeFront (value : α)
  | popFront

/-- A FIFO queue: the elements that wait, oldest first, each with the number of its push;
those that came out, in that order; and how many of the oldest the client has taken. -/
structure Fifo (α : Type u) where
  pushed : Nat := 0
  waiting : List (Nat × α) := []
  out : List (Nat × α) := []
  taken : Nat := 0

namespace Fifo

/-- The last value stored in the waiting element `i`. -/
def assign (waiting : List (Nat × α)) (i : Nat) (value : α) : List (Nat × α) :=
  waiting.modify i fun element => (element.1, value)

/-- A push appends an element, whatever its value before the first store; a take covers
elements that wait at that time. -/
inductive Step : Fifo α → Event α → Fifo α → Prop
  | pushBack {fifo : Fifo α} (value : α) : Step fifo .pushBack { fifo with
      pushed := fifo.pushed + 1
      waiting := fifo.waiting ++ [(fifo.pushed, value)] }
  | store {fifo : Fifo α} {i : Nat} {value : α} (inside : i < fifo.waiting.length) :
      Step fifo (.store i value) { fifo with waiting := assign fifo.waiting i value }
  | consumeFrontWhile {fifo : Fifo α} {fn : α → Bool} (consumed : fifo.taken = 0) :
      Step fifo (.consumeFrontWhile fn) { fifo with
        taken := (fifo.waiting.takeWhile fun element => fn element.2).length }
  | consumeSwap {fifo : Fifo α} (consumed : fifo.taken = 0) :
      Step fifo .consumeSwap { fifo with taken := fifo.waiting.length }
  | isEmpty {fifo : Fifo α} : Step fifo (.isEmpty (fifo.taken == 0)) fifo
  | front {fifo : Fifo α} {oldest : Nat × α} {rest : List (Nat × α)}
      (waiting : fifo.waiting = oldest :: rest) (left : 0 < fifo.taken) :
      Step fifo (.front oldest.2) fifo
  | storeFront {fifo : Fifo α} {value : α} (left : 0 < fifo.taken) :
      Step fifo (.storeFront value) { fifo with waiting := assign fifo.waiting 0 value }
  | popFront {fifo : Fifo α} {oldest : Nat × α} {rest : List (Nat × α)}
      (waiting : fifo.waiting = oldest :: rest) (left : 0 < fifo.taken) :
      Step fifo .popFront { fifo with
        waiting := rest
        out := fifo.out ++ [oldest]
        taken := fifo.taken - 1 }

def system : System (Fifo α) (Event α) where
  Init fifo := fifo = {}
  Step := Step

/-- Every element pushed waits or came out, once, in the order of the pushes. -/
def InOrder (fifo : Fifo α) : Prop :=
  (fifo.out ++ fifo.waiting).map Prod.fst = List.range fifo.pushed

theorem assign_numbers (waiting : List (Nat × α)) (i : Nat) (value : α) :
    (assign waiting i value).map Prod.fst = waiting.map Prod.fst := by
  apply List.ext_getElem?
  intro j
  rw [List.getElem?_map, List.getElem?_map, assign, List.getElem?_modify]
  by_cases same : i = j
  · cases waiting[j]? <;> simp [same]
  · simp [same]

theorem InOrder.step {fifo next : Fifo α} {event : Event α} (ordered : fifo.InOrder)
    (move : Step fifo event next) : next.InOrder := by
  unfold InOrder at *
  cases move with
  | pushBack value =>
      rw [← List.append_assoc, List.map_append, ordered, List.range_succ]
      rfl
  | store _ => rwa [List.map_append, assign_numbers, ← List.map_append]
  | storeFront _ => rwa [List.map_append, assign_numbers, ← List.map_append]
  | popFront waiting _ =>
      rw [waiting] at ordered
      rwa [List.append_assoc]
  | consumeFrontWhile _ => exact ordered
  | consumeSwap _ => exact ordered
  | isEmpty => exact ordered
  | front _ _ => exact ordered

theorem inOrder {fifo : Fifo α} {trace : List (Event α)} (run : system.Traced trace fifo) :
    fifo.InOrder := by
  apply run.invariant InOrder
  · intro fifo initial
    rw [initial]
    rfl
  · intro fifo event next ordered move
    exact ordered.step move

end Fifo

/-! ### The buffer and its client -/

/-- The buffer, the references to the elements pushed and not popped, oldest first, and the
subrange taken last. -/
structure Client (α : Type u) (Np : BitVec 32) where
  buffer : CircularBuffer α Np
  references : List Nat := []
  subrange : Option Subrange := none

/-- At most `_Np` elements are outstanding; a subrange is taken when the one before is
consumed, and popped from while it is not. -/
inductive Step : Client α Np → Event α → Client α Np → Prop
  | pushBack {client : Client α Np} (room : client.references.length < Np.toNat) :
      Step client .pushBack { client with
        buffer := client.buffer.pushBack.2
        references := client.references ++ [client.buffer.pushBack.1] }
  | store {client : Client α Np} {i reference : Nat} {value : α}
      (here : client.references[i]? = some reference) :
      Step client (.store i value) { client with buffer := client.buffer.store reference value }
  | consumeFrontWhile {client : Client α Np} {fn : α → Bool}
      (consumed : ∀ subrange, client.subrange = some subrange →
        subrange.isEmpty client.buffer = true) :
      Step client (.consumeFrontWhile fn) { client with
        subrange := some (client.buffer.consumeFrontWhile fn) }
  | consumeSwap {client : Client α Np}
      (consumed : ∀ subrange, client.subrange = some subrange →
        subrange.isEmpty client.buffer = true) :
      Step client .consumeSwap { client with subrange := some client.buffer.consumeSwap }
  | isEmpty {client : Client α Np} {subrange : Subrange}
      (taken : client.subrange = some subrange) :
      Step client (.isEmpty (subrange.isEmpty client.buffer)) client
  | front {client : Client α Np} {subrange : Subrange} (taken : client.subrange = some subrange)
      (left : subrange.isEmpty client.buffer = false) :
      Step client (.front (client.buffer.storage (subrange.front client.buffer))) client
  | storeFront {client : Client α Np} {subrange : Subrange} {value : α}
      (taken : client.subrange = some subrange)
      (left : subrange.isEmpty client.buffer = false) :
      Step client (.storeFront value) { client with
        buffer := client.buffer.store (subrange.front client.buffer) value }
  | popFront {client : Client α Np} {subrange : Subrange}
      (taken : client.subrange = some subrange)
      (left : subrange.isEmpty client.buffer = false) :
      Step client .popFront { client with
        buffer := subrange.popFront client.buffer
        references := client.references.tail }

/-- A new buffer, whatever the values of its elements. -/
def system (α : Type u) (Np : BitVec 32) : System (Client α Np) (Event α) where
  Init client := ∃ storage, client = { buffer := { storage } }
  Step := Step

section Refinement

variable {shape : RingShape}

/-- The buffer holds the waiting elements, in the slots of the positions that follow those
of the elements that came out. -/
structure Represents (shape : RingShape) (client : Client α shape.nSlot) (fifo : Fifo α) :
    Prop where
  pushed : fifo.pushed = fifo.out.length + fifo.waiting.length
  head : client.buffer.head = counter fifo.out.length
  tail : client.buffer.tail = counter (fifo.out.length + fifo.waiting.length)
  bounded : fifo.waiting.length ≤ shape.size
  stored : ∀ i element, fifo.waiting[i]? = some element →
    client.buffer.storage ((fifo.out.length + i) % shape.size) = element.2
  references : client.references =
    window (fun position => position % shape.size) fifo.out.length fifo.waiting.length
  taken : fifo.taken ≤ fifo.waiting.length
  ends : ∀ subrange, client.subrange = some subrange →
    subrange.ends = counter (fifo.out.length + fifo.taken)
  untaken : client.subrange = none → fifo.taken = 0

theorem data_counter (buffer : CircularBuffer α shape.nSlot) (position : Nat) :
    buffer.data (counter position) = position % shape.size := by
  rw [data, ← shape.mask_eq]
  exact slot_counter shape position

/-- The loop stops at the first element that does not satisfy the predicate. -/
theorem scan_spec {buffer : CircularBuffer α shape.nSlot} (fn : α → Bool)
    (elements : List (Nat × α)) : ∀ (position : Nat),
    buffer.tail = counter (position + elements.length) → elements.length < 2 ^ 32 →
    (∀ i element, elements[i]? = some element →
      buffer.storage ((position + i) % shape.size) = element.2) →
    buffer.scan fn (counter position) =
      counter (position + (elements.takeWhile fun element => fn element.2).length) := by
  induction elements with
  | nil =>
      intro position tail _ _
      rw [scan, if_neg]
      · rfl
      · rw [tail]
        exact fun more => more.1 rfl
  | cons first rest inductionHypothesis =>
      intro position tail small stored
      rw [List.length_cons] at tail small
      have differs : counter position ≠ buffer.tail := by
        intro same
        have atEnd := counter_inj (by omega) (by omega) (same.trans tail)
        omega
      have value : buffer.storage (buffer.data (counter position)) = first.2 := by
        rw [data_counter]
        exact stored 0 first rfl
      rw [scan, value]
      cases holds : fn first.2 with
      | false => simp [holds]
      | true =>
          have kept : (first :: rest).takeWhile (fun element => fn element.2) =
              first :: rest.takeWhile fun element => fn element.2 :=
            List.takeWhile_cons_of_pos holds
          rw [if_pos ⟨differs, rfl⟩, counter_succ, kept,
            inductionHypothesis (position + 1) (by rw [tail]; congr 1; omega) (by omega)]
          · rw [List.length_cons]
            congr 1
            omega
          · intro i element here
            have next := stored (i + 1) element here
            rwa [show position + (i + 1) = position + 1 + i by omega] at next

variable {client : Client α shape.nSlot} {fifo : Fifo α}

theorem Represents.isEmpty (represents : Represents shape client fifo) {subrange : Subrange}
    (taken : client.subrange = some subrange) :
    subrange.isEmpty client.buffer = (fifo.taken == 0) := by
  have small := shape.size_lt
  have bounded := represents.bounded
  have within := represents.taken
  rw [Subrange.isEmpty, represents.head, represents.ends subrange taken, Bool.eq_iff_iff,
    beq_iff_eq, beq_iff_eq]
  constructor
  · intro same
    have atEnd := counter_inj (by omega) (by omega) same
    omega
  · intro nothing
    rw [nothing, Nat.add_zero]

theorem Represents.left (represents : Represents shape client fifo) {subrange : Subrange}
    (taken : client.subrange = some subrange)
    (left : subrange.isEmpty client.buffer = false) : 0 < fifo.taken := by
  rw [represents.isEmpty taken] at left
  exact Nat.pos_of_ne_zero (by simpa using left)

theorem Represents.consumed (represents : Represents shape client fifo)
    (consumed : ∀ subrange, client.subrange = some subrange →
      subrange.isEmpty client.buffer = true) : fifo.taken = 0 := by
  cases taken : client.subrange with
  | none => exact represents.untaken taken
  | some subrange =>
      have empty := consumed subrange taken
      rw [represents.isEmpty taken] at empty
      exact of_decide_eq_true empty

theorem Represents.front (represents : Represents shape client fifo) (subrange : Subrange) :
    subrange.front client.buffer = fifo.out.length % shape.size := by
  rw [Subrange.front, represents.head, data_counter]

theorem Represents.pushBack (represents : Represents shape client fifo)
    (room : client.references.length < shape.nSlot.toNat) :
    Represents shape { client with
        buffer := client.buffer.pushBack.2
        references := client.references ++ [client.buffer.pushBack.1] }
      { fifo with
        pushed := fifo.pushed + 1
        waiting := fifo.waiting ++ [(fifo.pushed, client.buffer.storage client.buffer.pushBack.1)]
      } := by
  have reference : client.buffer.pushBack.1 =
      (fifo.out.length + fifo.waiting.length) % shape.size := by
    rw [CircularBuffer.pushBack, represents.tail, data_counter]
  rw [represents.references, window_length, shape.nSlot_toNat] at room
  constructor
  · simp only [List.length_append, List.length_singleton, represents.pushed]
    omega
  · exact represents.head
  · simp only [CircularBuffer.pushBack, represents.tail, counter_succ, List.length_append,
      List.length_singleton]
    rfl
  · simp only [List.length_append, List.length_singleton]
    exact room
  · intro i element here
    rcases Nat.lt_trichotomy i fifo.waiting.length with before | here' | after
    · rw [List.getElem?_append_left before] at here
      exact represents.stored i element here
    · subst here'
      rw [List.getElem?_concat_length] at here
      rw [← Option.some.inj here, reference]
      rfl
    · rw [List.getElem?_eq_none (by simp; omega)] at here
      cases here
  · simp only [List.length_append, List.length_singleton, represents.references, reference]
    rw [window_append]
    rfl
  · simp only [List.length_append, List.length_singleton]
    exact Nat.le_succ_of_le represents.taken
  · exact represents.ends
  · exact represents.untaken

theorem Represents.store (represents : Represents shape client fifo) {i : Nat} (value : α)
    (inside : i < fifo.waiting.length) :
    Represents shape { client with
        buffer := client.buffer.store ((fifo.out.length + i) % shape.size) value }
      { fifo with waiting := Fifo.assign fifo.waiting i value } := by
  have bounded := represents.bounded
  have length : (Fifo.assign fifo.waiting i value).length = fifo.waiting.length :=
    List.length_modify ..
  constructor
  · rw [length]
    exact represents.pushed
  · exact represents.head
  · rw [length]
    exact represents.tail
  · rw [length]
    exact bounded
  · intro j element here
    have within := (List.getElem?_eq_some_iff.mp here).1
    rw [length] at within
    rw [Fifo.assign, List.getElem?_modify] at here
    dsimp only [CircularBuffer.store]
    by_cases same : i = j
    · subst same
      cases before : fifo.waiting[i]? with
      | none => simp [before] at here
      | some old =>
          have changed : (old.1, value) = element := by simpa [before] using here
          rw [Function.update_self, ← changed]
    · have unchanged : fifo.waiting[j]? = some element := by simpa [same] using here
      rw [Function.update_of_ne]
      · exact represents.stored j element unchanged
      · intro slots
        rcases Nat.lt_or_gt_of_ne same with less | more
        · exact mod_size_ne (by omega) (by omega) slots.symm
        · exact mod_size_ne (by omega) (by omega) slots
  · rw [length]
    exact represents.references
  · rw [length]
    exact represents.taken
  · exact represents.ends
  · exact represents.untaken

theorem Represents.take (represents : Represents shape client fifo) {taken : Nat}
    {subrange : Subrange} (within : taken ≤ fifo.waiting.length)
    (ends : subrange.ends = counter (fifo.out.length + taken)) :
    Represents shape { client with subrange := some subrange } { fifo with taken := taken } where
  pushed := represents.pushed
  head := represents.head
  tail := represents.tail
  bounded := represents.bounded
  stored := represents.stored
  references := represents.references
  taken := within
  ends _ same := Option.some.inj same ▸ ends
  untaken absent := absurd absent (Option.some_ne_none _)

theorem Represents.popFront (represents : Represents shape client fifo) {oldest : Nat × α}
    {rest : List (Nat × α)} (waiting : fifo.waiting = oldest :: rest) (left : 0 < fifo.taken)
    (subrange : Subrange) :
    Represents shape { client with
        buffer := subrange.popFront client.buffer
        references := client.references.tail }
      { fifo with
        waiting := rest
        out := fifo.out ++ [oldest]
        taken := fifo.taken - 1 } := by
  have length : fifo.waiting.length = rest.length + 1 := by rw [waiting, List.length_cons]
  have pushed := represents.pushed
  have bounded := represents.bounded
  have within := represents.taken
  constructor
  · simp only [List.length_append, List.length_singleton]
    omega
  · simp only [Subrange.popFront, represents.head, counter_succ, List.length_append,
      List.length_singleton]
  · simp only [Subrange.popFront, represents.tail, List.length_append, List.length_singleton]
    congr 1
    omega
  · dsimp only
    omega
  · intro i element here
    have stored := represents.stored (i + 1) element (by rw [waiting]; exact here)
    simp only [Subrange.popFront, List.length_append, List.length_singleton]
    rwa [show fifo.out.length + 1 + i = fifo.out.length + (i + 1) by omega]
  · simp only [represents.references, length, List.length_append, List.length_singleton]
    rw [← List.drop_one, window_drop, Nat.add_sub_cancel]
  · dsimp only
    omega
  · intro other taken
    rw [represents.ends other taken]
    simp only [List.length_append, List.length_singleton]
    congr 1
    omega
  · intro untaken
    have nothing := represents.untaken untaken
    dsimp only
    omega

theorem Represents.exists_oldest (represents : Represents shape client fifo)
    (left : 0 < fifo.taken) : ∃ oldest rest, fifo.waiting = oldest :: rest := by
  cases waiting : fifo.waiting with
  | nil =>
      have within := represents.taken
      rw [waiting, List.length_nil] at within
      omega
  | cons oldest rest => exact ⟨oldest, rest, rfl⟩

theorem Represents.step (represents : Represents shape client fifo) {event : Event α}
    {next : Client α shape.nSlot} (move : Step client event next) :
    ∃ after, Fifo.Step fifo event after ∧ Represents shape next after := by
  cases move with
  | pushBack room => exact ⟨_, .pushBack _, represents.pushBack room⟩
  | @store i reference value here =>
      rw [represents.references] at here
      have inside : i < fifo.waiting.length := by
        simpa using (List.getElem?_eq_some_iff.mp here).1
      have slots : reference = (fifo.out.length + i) % shape.size := by
        simpa [window, inside] using here.symm
      rw [slots]
      exact ⟨_, .store inside, represents.store value inside⟩
  | @consumeFrontWhile fn consumed =>
      have small := shape.size_lt
      have bounded := represents.bounded
      have ends := scan_spec fn fifo.waiting fifo.out.length represents.tail (by omega)
        represents.stored
      rw [← represents.head] at ends
      have within : (fifo.waiting.takeWhile fun element => fn element.2).length ≤
          fifo.waiting.length := (List.takeWhile_sublist _).length_le
      exact ⟨_, .consumeFrontWhile (represents.consumed consumed), represents.take within ends⟩
  | consumeSwap consumed =>
      exact ⟨_, .consumeSwap (represents.consumed consumed),
        represents.take (Nat.le_refl _) represents.tail⟩
  | isEmpty taken =>
      rw [represents.isEmpty taken]
      exact ⟨_, .isEmpty, represents⟩
  | front taken left =>
      have some := represents.left taken left
      obtain ⟨oldest, rest, waiting⟩ := represents.exists_oldest some
      have value := represents.stored 0 oldest (by rw [waiting]; rfl)
      rw [represents.front, ← Nat.add_zero fifo.out.length, value]
      exact ⟨_, .front waiting some, represents⟩
  | @storeFront subrange value taken left =>
      have some := represents.left taken left
      have inside := Nat.lt_of_lt_of_le some represents.taken
      rw [represents.front, ← Nat.add_zero fifo.out.length]
      exact ⟨_, .storeFront some, represents.store value inside⟩
  | popFront taken left =>
      have some := represents.left taken left
      obtain ⟨oldest, rest, waiting⟩ := represents.exists_oldest some
      exact ⟨_, .popFront waiting some, represents.popFront waiting some _⟩

theorem simulation (shape : RingShape) :
    System.Simulation (system α shape.nSlot) Fifo.system (Represents shape) where
  init := by
    rintro _ ⟨storage, rfl⟩
    refine ⟨{}, rfl, ?_⟩
    constructor <;> simp [counter, window]
  step _ _ _ _ represents move := represents.step move

/-- Whatever a client does and is told, a FIFO queue answers the same, and its elements
wait or came out once each, in the order of their pushes. -/
theorem refines_fifo (shape : RingShape) {trace : List (Event α)} {client : Client α shape.nSlot}
    (run : (system α shape.nSlot).Traced trace client) :
    ∃ fifo : Fifo α, Fifo.system.Traced trace fifo ∧ Represents shape client fifo ∧
      fifo.InOrder := by
  obtain ⟨fifo, answered, represents⟩ := (simulation shape).traced run
  exact ⟨fifo, answered, represents, Fifo.inOrder answered⟩

/-- A prefix is taken and popped, an element pushed into the slot that this leaves, and all
the rest taken and popped. -/
theorem refines_fifo_pair : ∃ client : Client Nat RingShape.pair.nSlot, ∃ fifo : Fifo Nat,
    Fifo.system.Traced [.pushBack, .store 0 7, .pushBack, .store 1 8,
      .consumeFrontWhile (· == 7), .front 7, .popFront, .pushBack, .store 1 9,
      .consumeSwap, .front 8, .popFront, .front 9, .popFront] fifo ∧
      Represents RingShape.pair client fifo ∧ fifo.InOrder := by
  have initial : (system Nat RingShape.pair.nSlot).Traced []
      { buffer := { storage := fun _ => 0 } } := .init ⟨_, rfl⟩
  have first := (initial.step (.pushBack (by decide))).step (@Step.store _ _ _ 0 _ 7 rfl)
  have second := (first.step (.pushBack (by decide))).step (@Step.store _ _ _ 1 _ 8 rfl)
  have taken := second.step (@Step.consumeFrontWhile _ _ _ (· == 7) nofun)
  let full : CircularBuffer Nat RingShape.pair.nSlot :=
    { storage := Function.update (Function.update (fun _ => 0) 0 7) 1 8, tail := 2 }
  have scanned : full.scan (· == 7) 0 = 1 := by
    rw [scan, if_pos (by decide), scan, if_neg (by decide)]
    rfl
  have left : Subrange.isEmpty ⟨full.scan (· == 7) 0⟩ full = false := by
    rw [scanned]
    rfl
  have front := taken.step (.front rfl left)
  have popped := front.step (.popFront rfl left)
  have wrapped := (popped.step (.pushBack (by decide))).step (@Step.store _ _ _ 1 _ 9 rfl)
  let after : CircularBuffer Nat RingShape.pair.nSlot := { full with head := 1 }
  have consumed : Subrange.isEmpty ⟨full.scan (· == 7) 0⟩ after = true := by
    rw [scanned]
    rfl
  have rest := wrapped.step (.consumeSwap fun subrange same => Option.some.inj same ▸ consumed)
  have next := (rest.step (.front rfl (by decide))).step (.popFront rfl (by decide))
  have last := (next.step (.front rfl (by decide))).step (.popFront rfl (by decide))
  exact ⟨_, refines_fifo RingShape.pair last⟩

end Refinement

end CircularBuffer

end NgrCore
