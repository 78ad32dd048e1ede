import NgrCore.Library.RingCounter
import NgrCore.Library.Transition
import NgrCore.IoringTask
import Mathlib.Data.List.TakeDrop

/-!
Owns `__completion_queue::_M_complete` on the ring memory it shares with the
kernel. The kernel may post between any two steps of a call and between calls,
but never past the published head plus the size of the ring.

Proves that the calls together hand every posted CQE to its operation once and
in posting order, so that a task is the replay of its own CQEs, and what each
call returns.
-/

namespace NgrCore.CompletionQueue

open NgrCore.Library

/-- The ring memory: `__head_`, `__tail_` and `__cqe_`. -/
structure Ring where
  head : BitVec 32
  tail : BitVec 32
  cqe : Nat → Cqe

/-- Where the thread stands: outside a call, or inside one with its local
variables. `reload` is the load of `__tail_` at the end of an iteration. -/
inductive Pc
  | idle
  | loadTail (head : BitVec 32)
  | loop (head tail n : BitVec 32)
  | reload (head n : BitVec 32)
  | returned (n : BitVec 32)

/-- The ring, the operations and the position in the code, with the history of
what was posted and what was handed out. `seen` counts the CQEs posted when
`__tail_` was last loaded; `handledAtCall` and `postedAtCall` are the lengths of
the histories when the current call began. -/
structure State where
  ring : Ring
  task : Addr → IoringTask
  pc : Pc
  posted : List Cqe
  handled : List Cqe
  seen : Nat
  handledAtCall : Nat
  postedAtCall : Nat

inductive Label
  | call
  | loadTail
  | dispatch
  | reload
  | publish
  | post (cqe : Cqe)
deriving DecidableEq

/-- `__op->_M_complete(__cqe)` for the operation the CQE names. -/
def dispatch (state : State) (cqe : Cqe) : State :=
  { state with
    task := Function.update state.task cqe.userData
      ((state.task cqe.userData).complete cqe).1
    handled := state.handled ++ [cqe] }

section Calls

variable (shape : RingShape)

/-- The steps of `_M_complete` and of the kernel. -/
inductive Step : State → Label → State → Prop
  | call {state : State}
      (outside : state.pc = .idle ∨ ∃ n, state.pc = .returned n) :
      Step state .call { state with
        pc := .loadTail state.ring.head
        handledAtCall := state.handled.length
        postedAtCall := state.posted.length }
  | loadTail {state : State} {head : BitVec 32} (pc : state.pc = .loadTail head) :
      Step state .loadTail { state with
        pc := .loop head state.ring.tail 0
        seen := state.posted.length }
  | dispatch {state : State} {head tail n : BitVec 32} {cqe : Cqe}
      (pc : state.pc = .loop head tail n) (more : head ≠ tail)
      (read : cqe = state.ring.cqe (slot shape.mask head)) :
      Step state .dispatch { dispatch state cqe with
        pc := .reload (head + 1)
          (n + BitVec.ofInt 32 ((state.task cqe.userData).complete cqe).2) }
  | reload {state : State} {head n : BitVec 32} (pc : state.pc = .reload head n) :
      Step state .reload { state with
        pc := .loop head state.ring.tail n
        seen := state.posted.length }
  | publish {state : State} {head tail n : BitVec 32}
      (pc : state.pc = .loop head tail n) (drained : head = tail) :
      Step state .publish { state with
        ring := { state.ring with head := head }
        pc := .returned n }
  | post {state : State} {cqe : Cqe}
      (room : state.ring.tail - state.ring.head < shape.nSlot) :
      Step state (.post cqe) { state with
        ring := { state.ring with
          tail := state.ring.tail + 1
          cqe := Function.update state.ring.cqe (slot shape.mask state.ring.tail) cqe }
        posted := state.posted ++ [cqe] }

/-- The CQEs a ring holds between its head and its tail. -/
def Ring.contents (ring : Ring) : List Cqe :=
  (List.range (ring.tail - ring.head).toNat).map fun i =>
    ring.cqe (slot shape.mask (ring.head + BitVec.ofNat 32 i))

/-- A ring at arbitrary counters, with no call in progress; its contents are
the CQEs posted so far. -/
structure Start (start : State) : Prop where
  pc : start.pc = .idle
  window : start.ring.tail - start.ring.head ≤ shape.nSlot
  posted : start.posted = start.ring.contents shape
  handled : start.handled = []

def system (start : State) : System State Label where
  Init state := state = start
  Step := Step shape

/-- What holds in every state of every run. -/
structure Drains (start state : State) : Prop where
  inOrder : state.handled <+: state.posted
  readsPosted : ∀ head tail n, state.pc = .loop head tail n → head ≠ tail →
    state.posted[state.handled.length]? = some (state.ring.cqe (slot shape.mask head))
  headBehind : ∃ published ≤ state.handled.length,
    state.ring.head = start.ring.head + BitVec.ofNat 32 published ∧
      state.ring.tail = start.ring.head + BitVec.ofNat 32 state.posted.length ∧
      state.posted.length - published ≤ shape.nSlot.toNat
  complete : ∀ n, state.pc = .returned n →
    state.handled.length = state.seen ∧ state.postedAtCall ≤ state.seen ∧
      state.ring.head = start.ring.head + BitVec.ofNat 32 state.handled.length
  result : ∀ n, state.pc = .returned n →
    n.toNat = terminals (state.handled.drop state.handledAtCall)
  handedTo : ∀ op, state.task op =
    (start.task op).completeAll (state.handled.filter fun cqe => cqe.userData = op)

/-- A bound on the steps the current call still takes. -/
def remaining (state : State) : Nat :=
  match state.pc with
  | .idle => 0
  | .loadTail _ => 2 * shape.nSlot.toNat + 2
  | .loop head _ _ => 2 * (shape.nSlot.toNat - (head - state.ring.head).toNat) + 1
  | .reload head _ => 2 * (shape.nSlot.toNat - (head - state.ring.head).toNat) + 2
  | .returned _ => 0

/-- A call in progress can always take a step of its own, and each of these
uses up the bound, however much the kernel posts meanwhile. -/
structure Returns (state : State) : Prop where
  moves : state.pc ≠ .idle → (∀ n, state.pc ≠ .returned n) →
    ∃ label next, label ≠ .call ∧ (∀ cqe, label ≠ .post cqe) ∧ Step shape state label next
  bounded : ∀ label next, Step shape state label next → label ≠ .call →
    ((∀ cqe, label ≠ .post cqe) → remaining shape next < remaining shape state) ∧
      (∀ cqe, label = .post cqe → remaining shape next = remaining shape state)

variable {shape}

/-! ### Positions

`base` is the position of the head at the start; the CQE number `i` of the
history sits at position `base + i`. `published` counts the CQEs handed out
when the head was last published. -/

/-- Where a call stands, in terms of positions. -/
def AtPc (base published : Nat) (state : State) : Prop :=
  match state.pc with
  | .idle => state.handled.length = published
  | .loadTail head =>
      head = counter (base + state.handled.length) ∧ state.handled.length = published ∧
        state.handledAtCall = published ∧ state.postedAtCall ≤ state.posted.length
  | .loop head tail n =>
      head = counter (base + state.handled.length) ∧ tail = counter (base + state.seen) ∧
        state.handled.length ≤ state.seen ∧ state.seen ≤ state.posted.length ∧
        state.handledAtCall = published ∧ state.postedAtCall ≤ state.seen ∧
        n = counter (terminals (state.handled.drop published))
  | .reload head n =>
      head = counter (base + state.handled.length) ∧
        state.handledAtCall = published ∧ state.postedAtCall ≤ state.posted.length ∧
        n = counter (terminals (state.handled.drop published))
  | .returned n =>
      state.handled.length = published ∧ state.handled.length = state.seen ∧
        state.postedAtCall ≤ state.seen ∧ state.handledAtCall ≤ published ∧
        published - state.handledAtCall < 2 ^ 32 ∧
        n = counter (terminals (state.handled.drop state.handledAtCall))

/-- Every task is what `_M_complete` makes of the CQEs handed out for it, in
their order. -/
def Handed (task : Addr → IoringTask) (state : State) : Prop :=
  ∀ op, state.task op =
    (task op).completeAll (state.handled.filter fun cqe => cqe.userData = op)

structure Inv (shape : RingShape) (base published : Nat) (state : State) : Prop where
  head : state.ring.head = counter (base + published)
  tail : state.ring.tail = counter (base + state.posted.length)
  behind : published ≤ state.handled.length
  inOrder : state.handled <+: state.posted
  room : state.posted.length - published ≤ shape.size
  stored : ∀ i, published ≤ i → i < state.posted.length →
    some (state.ring.cqe ((base + i) % shape.size)) = state.posted[i]?
  here : AtPc base published state

section Preservation

variable {base published : Nat} {state next : State}

/-- The iteration reads the oldest CQE that was posted and not handed out. -/
theorem Inv.read {head tail n : BitVec 32} (inv : Inv shape base published state)
    (pc : state.pc = .loop head tail n) (more : head ≠ tail) :
    state.handled.length < state.seen ∧ state.seen ≤ state.posted.length ∧
      state.posted[state.handled.length]? =
        some (state.ring.cqe (slot shape.mask head)) := by
  obtain ⟨-, -, behind, -, -, stored, here⟩ := inv
  simp only [AtPc, pc] at here
  obtain ⟨rfl, rfl, seenLe, seenPosted, -⟩ := here
  have less : state.handled.length < state.seen :=
    lt_of_le_of_ne seenLe fun same => more (by rw [same])
  refine ⟨less, seenPosted, ?_⟩
  rw [slot_counter]
  exact (stored _ behind (by omega)).symm

theorem prefix_concat {handled posted : List Cqe} {cqe : Cqe} (inOrder : handled <+: posted)
    (oldest : posted[handled.length]? = some cqe) : handled ++ [cqe] <+: posted := by
  obtain ⟨rest, rfl⟩ := inOrder
  cases rest with
  | nil => simp at oldest
  | cons first rest =>
      obtain rfl : first = cqe := by simpa using oldest
      exact ⟨rest, by simp⟩

/-- The returned number grows by one for each CQE without `F_MORE`. -/
theorem counter_terminals_concat (handled : List Cqe) (cqe : Cqe) (task : IoringTask) :
    counter (terminals handled) + BitVec.ofInt 32 (task.complete cqe).2 =
      counter (terminals (handled ++ [cqe])) := by
  rw [terminals_append, ← counter_add]
  congr 1
  cases more : cqe.more <;> simp [IoringTask.complete, more]

theorem inv_call (inv : Inv shape base published state)
    (outside : state.pc = .idle ∨ ∃ n, state.pc = .returned n) :
    Inv shape base published { state with
      pc := .loadTail state.ring.head
      handledAtCall := state.handled.length
      postedAtCall := state.posted.length } := by
  obtain ⟨head, tail, behind, inOrder, room, stored, here⟩ := inv
  have atHead : state.handled.length = published := by
    rcases outside with pc | ⟨n, pc⟩
    · simpa only [AtPc, pc] using here
    · simp only [AtPc, pc] at here
      exact here.1
  refine ⟨head, tail, behind, inOrder, room, stored, ?_, atHead, atHead, le_rfl⟩
  rw [atHead]
  exact head

theorem inv_loadTail {head : BitVec 32} (inv : Inv shape base published state)
    (pc : state.pc = .loadTail head) :
    Inv shape base published { state with
      pc := .loop head state.ring.tail 0
      seen := state.posted.length } := by
  obtain ⟨headEq, tail, behind, inOrder, room, stored, here⟩ := inv
  simp only [AtPc, pc] at here
  obtain ⟨here, atHead, began, earlier⟩ := here
  refine ⟨headEq, tail, behind, inOrder, room, stored, here, tail, inOrder.length_le, le_rfl,
    began, earlier, ?_⟩
  simp [← atHead, counter]

theorem inv_dispatch {head tail n : BitVec 32} {cqe : Cqe}
    (inv : Inv shape base published state) (pc : state.pc = .loop head tail n)
    (more : head ≠ tail) (read : cqe = state.ring.cqe (slot shape.mask head)) :
    Inv shape base published { dispatch state cqe with
      pc := .reload (head + 1)
        (n + BitVec.ofInt 32 ((state.task cqe.userData).complete cqe).2) } := by
  obtain ⟨less, seenPosted, oldest⟩ := inv.read pc more
  rw [← read] at oldest
  obtain ⟨headEq, tailEq, behind, inOrder, room, stored, here⟩ := inv
  simp only [AtPc, pc] at here
  obtain ⟨rfl, rfl, seenLe, -, began, earlier, rfl⟩ := here
  refine ⟨headEq, tailEq, ?_, prefix_concat inOrder oldest, room, stored, ?_, began, ?_, ?_⟩
  · simp only [dispatch, List.length_append]
    omega
  · simp only [dispatch, List.length_append, List.length_singleton]
    exact counter_succ _
  · simp only [dispatch]
    omega
  · simp only [dispatch]
    rw [List.drop_append_of_le_length behind]
    exact counter_terminals_concat _ _ _

theorem inv_reload {head n : BitVec 32} (inv : Inv shape base published state)
    (pc : state.pc = .reload head n) :
    Inv shape base published { state with
      pc := .loop head state.ring.tail n
      seen := state.posted.length } := by
  obtain ⟨headEq, tail, behind, inOrder, room, stored, here⟩ := inv
  simp only [AtPc, pc] at here
  obtain ⟨here, began, earlier, count⟩ := here
  exact ⟨headEq, tail, behind, inOrder, room, stored, here, tail, inOrder.length_le, le_rfl,
    began, earlier, count⟩

/-- Publishing the head makes everything handed out free again. -/
theorem inv_publish {head tail n : BitVec 32} (inv : Inv shape base published state)
    (pc : state.pc = .loop head tail n) (drained : head = tail) :
    Inv shape base state.handled.length { state with
      ring := { state.ring with head := head }
      pc := .returned n } := by
  obtain ⟨headEq, tailEq, behind, inOrder, room, stored, here⟩ := inv
  have small := shape.size_lt
  simp only [AtPc, pc] at here
  obtain ⟨rfl, rfl, seenLe, seenPosted, began, earlier, count⟩ := here
  have same := counter_inj (by omega) (by omega) drained
  have handledPosted := inOrder.length_le
  have all : state.handled.length = state.seen := by omega
  have start : state.handledAtCall ≤ state.handled.length := by omega
  have few : state.handled.length - state.handledAtCall < 2 ^ 32 := by omega
  have nearer : state.posted.length - state.handled.length ≤ shape.size := by omega
  refine ⟨rfl, tailEq, le_rfl, inOrder, nearer, fun i low => stored i (by omega), rfl,
    all, earlier, start, few, ?_⟩
  simpa only [began] using count

theorem inv_post {cqe : Cqe} (inv : Inv shape base published state)
    (room : state.ring.tail - state.ring.head < shape.nSlot) :
    Inv shape base published { state with
      ring := { state.ring with
        tail := state.ring.tail + 1
        cqe := Function.update state.ring.cqe (slot shape.mask state.ring.tail) cqe }
      posted := state.posted ++ [cqe] } := by
  obtain ⟨headEq, tailEq, behind, inOrder, near, stored, here⟩ := inv
  have small := shape.size_lt
  have handledPosted := inOrder.length_le
  rw [BitVec.lt_def, headEq, tailEq, counter_sub (by omega) (by omega),
    shape.nSlot_toNat] at room
  refine ⟨headEq, ?_, behind, inOrder.trans (List.prefix_append _ _), ?_, ?_, ?_⟩
  · simp only [tailEq, counter_succ, List.length_append, List.length_singleton, Nat.add_assoc]
  · simp only [List.length_append, List.length_singleton]
    omega
  · intro i low high
    simp only [List.length_append, List.length_singleton] at high
    simp only [tailEq, slot_counter]
    by_cases newest : i = state.posted.length
    · subst i
      simp
    · have distinct : (base + i) % shape.size ≠ (base + state.posted.length) % shape.size :=
        mod_size_ne (by omega) (by omega)
      rw [Function.update_of_ne distinct, List.getElem?_append_left (by omega)]
      exact stored i low (by omega)
  · revert here
    unfold AtPc
    simp only [List.length_append, List.length_singleton]
    cases state.pc with
    | idle => exact id
    | loadTail head => exact fun ⟨atHead, all, began, earlier⟩ =>
        ⟨atHead, all, began, by omega⟩
    | loop head tail n => exact fun ⟨atHead, atTail, seenLe, seenPosted, rest⟩ =>
        ⟨atHead, atTail, seenLe, by omega, rest⟩
    | reload head n => exact fun ⟨atHead, began, earlier, count⟩ =>
        ⟨atHead, began, by omega, count⟩
    | returned n => exact id

theorem inv_step {label : Label} (inv : Inv shape base published state)
    (step : Step shape state label next) : ∃ published, Inv shape base published next := by
  cases step with
  | call outside => exact ⟨_, inv_call inv outside⟩
  | loadTail pc => exact ⟨_, inv_loadTail inv pc⟩
  | dispatch pc more read => exact ⟨_, inv_dispatch inv pc more read⟩
  | reload pc => exact ⟨_, inv_reload inv pc⟩
  | publish pc drained => exact ⟨_, inv_publish inv pc drained⟩
  | post room => exact ⟨_, inv_post inv room⟩

/-- The CQE of a `dispatch` reaches the operation it names and no other. -/
theorem handed_step {task : Addr → IoringTask} {label : Label} (handed : Handed task state)
    (step : Step shape state label next) : Handed task next := by
  cases step with
  | call outside => exact handed
  | loadTail pc => exact handed
  | @dispatch head tail n cqe pc more read =>
      intro op
      simp only [dispatch, List.filter_append, IoringTask.completeAll_append]
      by_cases named : cqe.userData = op
      · subst named
        simp [handed cqe.userData]
      · have other : op ≠ cqe.userData := fun same => named same.symm
        simp [named, other, handed op]
  | reload pc => exact handed
  | publish pc drained => exact handed
  | post room => exact handed

theorem drains_of_inv {start : State} (baseEq : start.ring.head = counter base)
    (inv : Inv shape base published state) (handed : Handed start.task state) :
    Drains shape start state := by
  have oldest : ∀ head tail n, state.pc = .loop head tail n → head ≠ tail →
      state.posted[state.handled.length]? = some (state.ring.cqe (slot shape.mask head)) :=
    fun _ _ _ pc more => (inv.read pc more).2.2
  obtain ⟨headEq, tailEq, behind, inOrder, room, stored, here⟩ := inv
  refine ⟨inOrder, oldest, ⟨published, behind, ?_, ?_, ?_⟩, ?_, ?_, handed⟩
  · rw [headEq, baseEq]
    exact (counter_add _ _).symm
  · rw [tailEq, baseEq]
    exact (counter_add _ _).symm
  · rw [shape.nSlot_toNat]
    exact room
  · intro n pc
    simp only [AtPc, pc] at here
    obtain ⟨rfl, all, earlier, -⟩ := here
    refine ⟨all, earlier, ?_⟩
    rw [headEq, baseEq]
    exact (counter_add _ _).symm
  · intro n pc
    simp only [AtPc, pc] at here
    obtain ⟨rfl, -, -, -, few, rfl⟩ := here
    have bound := terminals_le_length (state.handled.drop state.handledAtCall)
    rw [List.length_drop] at bound
    rw [counter_toNat, Nat.mod_eq_of_lt (by omega)]

theorem returns_of_inv (inv : Inv shape base published state) : Returns shape state := by
  refine ⟨fun inside running => ?_, fun label next step own => ?_⟩
  · cases pc : state.pc with
    | idle => exact absurd pc inside
    | loadTail head => exact ⟨_, _, by simp, by simp, .loadTail pc⟩
    | loop head tail n =>
        by_cases drained : head = tail
        · exact ⟨_, _, by simp, by simp, .publish pc drained⟩
        · exact ⟨_, _, by simp, by simp, .dispatch pc drained rfl⟩
    | reload head n => exact ⟨_, _, by simp, by simp, .reload pc⟩
    | returned n => exact absurd pc (running n)
  · cases step with
    | call => exact absurd rfl own
    | loadTail pc =>
        refine ⟨fun _ => ?_, by simp⟩
        simp only [remaining, pc]
        omega
    | @dispatch head tail n cqe pc more read =>
        obtain ⟨less, seenPosted, -⟩ := inv.read pc more
        obtain ⟨headEq, -, behind, -, room, -, here⟩ := inv
        have small := shape.size_lt
        simp only [AtPc, pc] at here
        have before : (head - state.ring.head).toNat = state.handled.length - published := by
          rw [here.1, headEq, counter_sub (by omega) (by omega)]
          omega
        have after : (head + 1 - state.ring.head).toNat =
            state.handled.length + 1 - published := by
          rw [here.1, headEq, counter_succ, counter_sub (by omega) (by omega)]
          omega
        refine ⟨fun _ => ?_, by simp⟩
        simp only [remaining, pc, dispatch, before, after, shape.nSlot_toNat]
        omega
    | reload pc =>
        refine ⟨fun _ => ?_, by simp⟩
        simp only [remaining, pc]
        omega
    | publish pc drained =>
        refine ⟨fun _ => ?_, by simp⟩
        simp only [remaining, pc]
        omega
    | post room => exact ⟨fun other => absurd rfl (other _), fun _ _ => rfl⟩

end Preservation

theorem inv_start {base : Nat} {start : State} (begins : Start shape start)
    (baseEq : start.ring.head = counter base) : Inv shape base 0 start := by
  have small := shape.size_lt
  have window := begins.window
  rw [BitVec.le_def, shape.nSlot_toNat] at window
  have length : start.posted.length = (start.ring.tail - start.ring.head).toNat := by
    simp [begins.posted, Ring.contents]
  refine ⟨baseEq, ?_, Nat.zero_le _, ?_, ?_, ?_, ?_⟩
  · rw [length, ← counter_add, ← baseEq, BitVec.ofNat_toNat, BitVec.setWidth_eq]
    bv_omega
  · rw [begins.handled]
    exact List.nil_prefix
  · omega
  · intro i _ less
    rw [begins.posted, Ring.contents, List.getElem?_map, List.getElem?_range (length ▸ less),
      baseEq, Option.map_some, counter_add, slot_counter]
  · simp [AtPc, begins.pc, begins.handled]

theorem reachable_inv {start state : State} (begins : Start shape start)
    (reachable : (system shape start).Reachable state) :
    ∃ published, Inv shape start.ring.head.toNat published state := by
  apply reachable.invariant
    fun state => ∃ published, Inv shape start.ring.head.toNat published state
  · intro state same
    subst same
    exact ⟨0, inv_start begins (counter_of_toNat _).symm⟩
  · intro before label after _ inv step
    rcases inv with ⟨published, inv⟩
    exact inv_step inv step

theorem reachable_handed {start state : State} (begins : Start shape start)
    (reachable : (system shape start).Reachable state) : Handed start.task state := by
  apply reachable.invariant (Handed start.task)
  · intro state same op
    subst same
    simp [begins.handled]
  · intro before label after _ handed step
    exact handed_step handed step

/-- Over any number of calls against a posting kernel, every posted CQE reaches
its operation once and in posting order, only posted slots are read, the
published head stays behind the tail, and each call returns what it counted. -/
theorem complete_drains {start state : State} (begins : Start shape start)
    (reachable : (system shape start).Reachable state) :
    Drains shape start state ∧ Returns shape state := by
  rcases reachable_inv begins reachable with ⟨published, inv⟩
  have handed := reachable_handed begins reachable
  exact ⟨drains_of_inv (counter_of_toNat _).symm inv handed, returns_of_inv inv⟩

end Calls

/-- A full ring whose tail has wrapped: a multishot CQE and a final one of the
same operation. -/
def wrapStart : State where
  ring := ⟨4294967295, 1, fun m => if m = 1 then ⟨10, 4, 2⟩ else ⟨10, 0, 0⟩⟩
  task := fun _ => { nOps := 1 }
  pc := .idle
  posted := [⟨10, 4, 2⟩, ⟨10, 0, 0⟩]
  handled := []
  seen := 0
  handledAtCall := 0
  postedAtCall := 0

theorem wrapStart_start : Start RingShape.pair wrapStart where
  pc := rfl
  window := by decide
  posted := by decide
  handled := rfl

/-- One call drains the full ring across the wrap and completes the operation
with both CQEs, and then the kernel posts one for another operation. -/
theorem complete_drains_wrap : ∃ state, (system RingShape.pair wrapStart).Reachable state ∧
    state.pc = .returned 1 ∧ state.ring.head = 1 ∧ state.ring.tail = 2 ∧
    state.task 10 = { nOps := 0, completed := [⟨10, 4, 2⟩, ⟨10, 0, 0⟩] } ∧
    state.task 12 = { nOps := 1 } ∧
    Drains RingShape.pair wrapStart state ∧ Returns RingShape.pair state := by
  have start : (system RingShape.pair wrapStart).Reachable wrapStart := .init rfl
  have loaded := (start.step (.call (.inl rfl))).step (.loadTail rfl)
  have first := (loaded.step (.dispatch rfl (by decide) rfl)).step (.reload rfl)
  have second := (first.step (.dispatch rfl (by decide) rfl)).step (.reload rfl)
  have published := second.step (.publish rfl (by decide))
  have posted := published.step (show Step RingShape.pair _ (.post ⟨12, 0, 0⟩) _ from
    .post (by decide))
  exact ⟨_, posted, rfl, rfl, rfl, rfl, rfl, complete_drains wrapStart_start posted⟩

end NgrCore.CompletionQueue
