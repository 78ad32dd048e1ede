import NgrCore.TaskFrame

/-!
Owns the facade through which `_M_do_execute` finds `__prev_alloc_` again: the objects
that facades are part of, which the coroutine it resumes may destroy, and what every
execution leaves in `__k_tls_alloc`.
-/

namespace NgrCore.TaskFrame.Restore

open Library

/-- The life of a `__task_facade`. One that `__spawn_task` holds dies with the frame of
its root task, the facade of an awaiter with the frame that awaits, and any of them with
the object it is a member of. -/
inductive Facade
  | unborn
  | within (frame : Option Nat)
  | gone
deriving Repr, DecidableEq

def Facade.exist : Facade → Bool
  | .within _ => true
  | .unborn | .gone => false

/-- What `_M_do_execute` met when control came back to it: whether its facade still
existed, `__k_tls_alloc` before the call and after it, and the live allocators. -/
structure Left where
  existed : Bool
  before : Option Nat
  after : Option Nat
  alive : Nat → Bool

/-- The facade was there to be read, and the slot leads to no destroyed allocator and to
the one it led to before, unless that one is gone. -/
structure Left.Restores (left : Left) : Prop where
  existed : left.existed = true
  alive : ∀ alloc, left.after = some alloc → left.alive alloc = true
  same : (∀ alloc, left.before = some alloc → left.alive alloc = true) →
    left.after = left.before

/-- The thread and its facades. For the proofs only: what `__k_tls_alloc` was before every
execution in progress, innermost first, and every return to `_M_do_execute`. -/
structure Machine where
  state : State := {}
  facades : Nat → Facade := fun _ => .unborn
  before : List (Option Nat) := []
  left : List Left := []

namespace Machine

def construct (m : Machine) (facade : Nat) (frame : Option Nat) : Machine :=
  { m with facades := Function.update m.facades facade (.within frame) }

def destruct (m : Machine) (facade : Nat) : Machine :=
  { m with facades := Function.update m.facades facade .gone }

/-- The end of a frame and of every object in it. -/
def destroyFrame (m : Machine) (frame : Nat) : Machine :=
  { m with
    facades := fun facade =>
      if m.facades facade = .within (some frame) then .gone else m.facades facade }

/-- The second half of `_M_do_execute` has brought the thread into `next`. -/
def leave (m : Machine) (facade : Nat) (next : State) : Machine :=
  { m with
    state := next
    before := m.before.tail
    left := m.left ++
      [⟨(m.facades facade).exist, m.before.headD none, next.kTlsAlloc, next.alive⟩] }

end Machine

/-- What the program does next: constructs a facade in a frame or elsewhere, destroys the
object that it is part of, or takes a step of the thread. -/
inductive Event
  | construct (facade : Nat) (frame : Option Nat)
  | destruct (facade : Nat)
  | thread (event : TaskFrame.Event)
deriving Repr, DecidableEq

/-- The steps of the thread, and what they do to its facades. A coroutine suspends in an
awaiter that exists, and a facade exists when it is executed. -/
inductive Step (m : Machine) : Event → Machine → Prop
  | construct (facade : Nat) (frame : Option Nat) :
      m.facades facade = .unborn →
      (∀ c, frame = some c → (m.state.frames c).isSome) →
      Step m (.construct facade frame) (m.construct facade frame)
  | destruct (facade : Nat) :
      (m.facades facade).exist → Step m (.destruct facade) (m.destruct facade)
  | call (n : Nat) {next : State} :
      TaskFrame.Step m.state (.call n) next →
      Step m (.thread (.call n)) { m with state := next }
  | spawn (c facade : Nat) {next : State} :
      m.facades facade = .unborn → TaskFrame.Step m.state (.spawn c facade) next →
      Step m (.thread (.spawn c facade)) { m.construct facade (some c) with state := next }
  | await (c : Nat) {next : State} :
      TaskFrame.Step m.state (.await c) next →
      Step m (.thread (.await c)) { m with state := next }
  | execute (facade : Nat) {next : State} :
      (m.facades facade).exist → TaskFrame.Step m.state (.execute facade) next →
      Step m (.thread (.execute facade))
        { m with state := next, before := m.state.kTlsAlloc :: m.before }
  | suspend (facade : Nat) {execution : Execution} {rest : List Execution} {next : State} :
      (m.facades facade).exist → m.state.running = execution :: rest →
      TaskFrame.Step m.state (.suspend facade) next →
      Step m (.thread (.suspend facade)) (m.leave execution.facade next)
  | finishChild {execution : Execution} {rest : List Execution} {parent : Nat}
      {next : State} :
      m.state.running = execution :: rest →
      m.state.continuation execution.frame = some parent →
      TaskFrame.Step m.state .finish next →
      Step m (.thread .finish) { m with state := next }
  | finishRoot {execution : Execution} {rest : List Execution} {next : State} :
      m.state.running = execution :: rest →
      m.state.continuation execution.frame = none →
      TaskFrame.Step m.state .finish next →
      Step m (.thread .finish)
        ((m.destroyFrame execution.frame).leave execution.facade next)
  | drop (c : Nat) {next : State} :
      TaskFrame.Step m.state (.drop c) next →
      Step m (.thread (.drop c)) { m.destroyFrame c with state := next }

def system : System Machine Event where
  Init m := m = {}
  Step := Step

/-- The frame holds no facade of an execution in progress, and with it goes no allocator
that one of them will restore. -/
structure Spares (m : Machine) (c : Nat) : Prop where
  facades : ∀ execution ∈ m.state.running, m.facades execution.facade ≠ .within (some c)
  allocator : ∀ frame alloc, m.state.frames c = some frame → frame.alloc = some alloc →
    some alloc ∉ m.before

/-- The condition on a step: it destroys nothing that an execution in progress will still
read, and executes no facade in which an allocator is still saved. -/
def Keeps (m : Machine) : Event → Prop
  | .destruct facade => facade ∉ m.state.running.map Execution.facade
  | .thread (.execute facade) => ∀ value,
      (facade, value) ∈ (m.state.running.map Execution.facade).zip m.before → value = none
  | .thread .finish => ∀ execution rest, m.state.running = execution :: rest →
      m.state.continuation execution.frame = none → Spares m execution.frame
  | .thread (.drop c) => Spares m c
  | _ => True

/-- The facades, read and cleared one after the other, give the values. -/
def Saves (prevAlloc : Nat → Option Nat) : List Nat → List (Option Nat) → Prop
  | [], [] => True
  | facade :: outer, value :: values =>
      prevAlloc facade = value ∧ Saves (Function.update prevAlloc facade none) outer values
  | _, _ => False

/-- The invariant of the runs whose steps all keep what is still to be read: every
execution in progress has a facade, which holds what `__k_tls_alloc` was, and neither that
nor `__k_tls_alloc` leads to a destroyed allocator. -/
structure Inv (m : Machine) : Prop where
  before : Saves m.state.prevAlloc (m.state.running.map Execution.facade) m.before
  facades : ∀ execution ∈ m.state.running, (m.facades execution.facade).exist
  saved : ∀ alloc, some alloc ∈ m.before → m.state.alive alloc = true
  slot : ∀ alloc, m.state.kTlsAlloc = some alloc → m.state.alive alloc = true
  left : ∀ left ∈ m.left, left.Restores

section Thread

variable {s : State}

@[simp] theorem operatorNew_running (n : Nat) : (s.operatorNew n).running = s.running := by
  unfold State.operatorNew
  split <;> rfl

@[simp] theorem operatorNew_prevAlloc (n : Nat) :
    (s.operatorNew n).prevAlloc = s.prevAlloc := by
  unfold State.operatorNew
  split <;> rfl

theorem operatorNew_alive {n alloc : Nat} (alive : s.alive alloc = true) :
    (s.operatorNew n).alive alloc = true := by
  unfold State.operatorNew
  split
  · refine (Function.update_apply _ _ _ _).trans ?_
    split
    · rfl
    · exact alive
  · exact alive

theorem operatorNew_slot {n alloc : Nat}
    (slot : ∀ alloc, s.kTlsAlloc = some alloc → s.alive alloc = true)
    (leads : (s.operatorNew n).kTlsAlloc = some alloc) :
    (s.operatorNew n).alive alloc = true := by
  cases before : s.kTlsAlloc with
  | none =>
      simp only [State.operatorNew, before] at leads ⊢
      obtain rfl : s.nextAlloc = alloc := Option.some.inj leads
      exact Function.update_self _ _ _
  | some pa =>
      simp only [State.operatorNew, before] at leads ⊢
      exact slot alloc leads

@[simp] theorem operatorDelete_running (f : Nat) (frame : Frame) :
    (s.operatorDelete f frame).running = s.running := by
  unfold State.operatorDelete
  split
  · rfl
  · split <;> rfl

@[simp] theorem operatorDelete_prevAlloc (f : Nat) (frame : Frame) :
    (s.operatorDelete f frame).prevAlloc = s.prevAlloc := by
  unfold State.operatorDelete
  split
  · rfl
  · split <;> rfl

/-- A frame takes no allocator with it but the one it was the first on. -/
theorem operatorDelete_alive {f alloc : Nat} {frame : Frame}
    (other : frame.alloc ≠ some alloc) (alive : s.alive alloc = true) :
    (s.operatorDelete f frame).alive alloc = true := by
  unfold State.operatorDelete
  split
  · rename_i first recorded
    have apart : alloc ≠ first := fun same => other (same ▸ recorded)
    exact (Function.update_of_ne apart _ _).trans alive
  · split <;> exact alive

theorem operatorDelete_slot {f alloc : Nat} {frame : Frame}
    (slot : ∀ alloc, s.kTlsAlloc = some alloc → s.alive alloc = true)
    (leads : (s.operatorDelete f frame).kTlsAlloc = some alloc) :
    (s.operatorDelete f frame).alive alloc = true := by
  cases recorded : frame.alloc with
  | some first =>
      simp only [State.operatorDelete, recorded] at leads
      exact absurd leads nofun
  | none =>
      refine operatorDelete_alive (by simp [recorded]) (slot alloc ?_)
      simp only [State.operatorDelete, recorded] at leads
      cases tls : s.kTlsAlloc with
      | none =>
          simp only [tls] at leads
          exact absurd leads nofun
      | some pa =>
          simp only [tls] at leads
          exact tls.symm.trans leads

end Thread

/-- A facade in which no allocator is saved can be used once more. -/
theorem Saves.clear {prevAlloc : Nat → Option Nat} {facades : List Nat}
    {values : List (Option Nat)} (saves : Saves prevAlloc facades values) {facade : Nat}
    (idle : ∀ value, (facade, value) ∈ facades.zip values → value = none) :
    Saves (Function.update prevAlloc facade none) facades values := by
  induction facades generalizing prevAlloc values with
  | nil => cases values <;> exact saves
  | cons first outer inductionHypothesis =>
      cases values with
      | nil => exact saves
      | cons value values =>
          obtain ⟨holds, rest⟩ := saves
          have below := inductionHypothesis rest fun value member =>
            idle value (List.mem_cons_of_mem _ member)
          by_cases same : first = facade
          · obtain rfl := same
            have empty := idle value List.mem_cons_self
            refine ⟨(Function.update_self _ _ _).trans empty.symm, ?_⟩
            rwa [Function.update_idem] at below ⊢
          · refine ⟨(Function.update_of_ne same _ _).trans holds, ?_⟩
            rwa [Function.update_comm same] at below

section Steps

variable {m : Machine}

theorem inv_init : Inv {} where
  before := trivial
  facades _ member := absurd member (by simp)
  saved _ member := absurd member (by simp)
  slot _ leads := absurd leads nofun
  left _ member := absurd member (by simp)

/-- A facade that is not being executed is nobody's to read. -/
theorem Inv.update (inv : Inv m) {facade : Nat} {life : Facade}
    (idle : facade ∉ m.state.running.map Execution.facade) :
    Inv { m with facades := Function.update m.facades facade life } where
  before := inv.before
  facades execution member := by
    have other : execution.facade ≠ facade :=
      fun same => idle (List.mem_map.mpr ⟨execution, member, same⟩)
    change (Function.update m.facades facade life execution.facade).exist
    rw [Function.update_of_ne other]
    exact inv.facades execution member
  saved := inv.saved
  slot := inv.slot
  left := inv.left

theorem Inv.idle (inv : Inv m) {facade : Nat} (unborn : m.facades facade = .unborn) :
    facade ∉ m.state.running.map Execution.facade := by
  intro member
  obtain ⟨execution, running, rfl⟩ := List.mem_map.mp member
  have exist := inv.facades execution running
  rw [unborn] at exist
  exact absurd exist nofun

/-- A step of the thread that leaves the facades in progress and their values alone, and
destroys no allocator that they will restore. -/
theorem Inv.thread (inv : Inv m) {next : State}
    (running : next.running.map Execution.facade = m.state.running.map Execution.facade)
    (prevAlloc : next.prevAlloc = m.state.prevAlloc)
    (saved : ∀ alloc, some alloc ∈ m.before → next.alive alloc = true)
    (slot : ∀ alloc, next.kTlsAlloc = some alloc → next.alive alloc = true) :
    Inv { m with state := next } where
  before := by
    change Saves next.prevAlloc (next.running.map Execution.facade) m.before
    rw [prevAlloc, running]
    exact inv.before
  facades execution member := by
    have mapped : execution.facade ∈ m.state.running.map Execution.facade :=
      running ▸ List.mem_map_of_mem member
    obtain ⟨same, member, facade⟩ := List.mem_map.mp mapped
    exact facade ▸ inv.facades same member
  saved := saved
  slot := slot
  left := inv.left

theorem Inv.destroyFrame (inv : Inv m) {c : Nat} (spares : Spares m c) :
    Inv (m.destroyFrame c) where
  before := inv.before
  facades execution member := by
    have kept : (m.destroyFrame c).facades execution.facade = m.facades execution.facade :=
      if_neg (spares.facades execution member)
    rw [kept]
    exact inv.facades execution member
  saved := inv.saved
  slot := inv.slot
  left := inv.left

theorem Inv.operatorDelete (inv : Inv m) {c : Nat} {frame : Frame} (spares : Spares m c)
    (found : m.state.frames c = some frame) :
    Inv { m.destroyFrame c with state := m.state.operatorDelete c frame } := by
  refine (inv.destroyFrame spares).thread ?_ (operatorDelete_prevAlloc c frame) ?_ ?_
  · rw [operatorDelete_running]
    rfl
  · intro alloc saved
    refine operatorDelete_alive (fun first => ?_) (inv.saved alloc saved)
    exact spares.allocator frame alloc found first saved
  · exact fun alloc => operatorDelete_slot inv.slot

theorem Inv.execute (inv : Inv m) {facade c : Nat} (exist : (m.facades facade).exist)
    (idle : ∀ value,
      (facade, value) ∈ (m.state.running.map Execution.facade).zip m.before → value = none) :
    Inv { m with
      state := m.state.execute facade c
      before := m.state.kTlsAlloc :: m.before } where
  before := by
    refine ⟨Function.update_self _ _ _, ?_⟩
    change Saves (Function.update (Function.update m.state.prevAlloc facade _) facade none) _ _
    rw [Function.update_idem]
    exact inv.before.clear idle
  facades execution member := by
    rcases List.mem_cons.mp member with rfl | outer
    · exact exist
    · exact inv.facades execution outer
  saved alloc member := by
    rcases List.mem_cons.mp member with leads | outer
    · exact inv.slot alloc leads.symm
    · exact inv.saved alloc outer
  slot _ leads := absurd leads nofun
  left := inv.left

theorem Inv.leave (inv : Inv m) {execution : Execution} {rest : List Execution}
    (running : m.state.running = execution :: rest) :
    Inv (m.leave execution.facade (m.state.leave execution.facade rest)) := by
  have exist := inv.facades execution (by simp [running])
  have saves := inv.before
  rw [running, List.map_cons] at saves
  obtain ⟨value, values, before⟩ : ∃ value values, m.before = value :: values := by
    cases before : m.before with
    | nil =>
        rw [before] at saves
        exact saves.elim
    | cons value values => exact ⟨value, values, rfl⟩
  rw [before] at saves
  obtain ⟨holds, outer⟩ := saves
  have restored : ∀ alloc, m.state.prevAlloc execution.facade = some alloc →
      m.state.alive alloc = true := by
    intro alloc leads
    refine inv.saved alloc ?_
    rw [before, ← holds, leads]
    exact List.mem_cons_self
  constructor
  · change Saves _ (rest.map Execution.facade) m.before.tail
    rw [before]
    exact outer
  · intro outer member
    refine inv.facades outer ?_
    rw [running]
    exact List.mem_cons_of_mem _ member
  · intro alloc member
    exact inv.saved alloc (List.mem_of_mem_tail member)
  · exact restored
  · intro left member
    rcases List.mem_append.mp member with old | new
    · exact inv.left left old
    · obtain rfl := List.mem_singleton.mp new
      have head : m.before.headD none = m.state.prevAlloc execution.facade := by
        rw [before, List.headD_cons, holds]
      exact ⟨exist, restored, fun _ => head.symm⟩

theorem Inv.step (inv : Inv m) {event : Event} {next : Machine} (keeps : Keeps m event)
    (step : Step m event next) : Inv next := by
  cases step with
  | construct facade frame unborn => exact inv.update (inv.idle unborn)
  | destruct facade => exact inv.update keeps
  | call n step =>
      cases step
      refine inv.thread ?_ (operatorNew_prevAlloc n) ?_ fun _ => operatorNew_slot inv.slot
      · rw [operatorNew_running]
      · exact fun alloc saved => operatorNew_alive (inv.saved alloc saved)
  | spawn c facade unborn step =>
      cases step
      exact (inv.update (inv.idle unborn)).thread rfl rfl inv.saved inv.slot
  | await c step =>
      cases step with
      | await _ running =>
          refine inv.thread ?_ rfl inv.saved inv.slot
          rw [running]
          rfl
  | execute facade exist step =>
      cases step
      exact inv.execute exist keeps
  | @suspend facade execution rest _ exist running step =>
      cases step with
      | suspend _ runningToo =>
          obtain ⟨rfl, rfl⟩ := List.cons.inj (running.symm.trans runningToo)
          have suspended : Inv { m with
              state := { m.state with
                resume := Function.update m.state.resume facade (some execution.frame) } } :=
            inv.thread rfl rfl inv.saved inv.slot
          exact suspended.leave running
  | finishChild running parent step =>
      cases step with
      | finishChild runningToo =>
          obtain ⟨rfl, rfl⟩ := List.cons.inj (running.symm.trans runningToo)
          refine inv.thread ?_ rfl inv.saved inv.slot
          rw [running]
          rfl
      | finishRoot runningToo root =>
          obtain ⟨rfl, rfl⟩ := List.cons.inj (running.symm.trans runningToo)
          exact absurd (parent.symm.trans root) nofun
  | finishRoot running root step =>
      cases step with
      | finishChild runningToo parent =>
          obtain ⟨rfl, rfl⟩ := List.cons.inj (running.symm.trans runningToo)
          exact absurd (parent.symm.trans root) nofun
      | finishRoot runningToo _ found =>
          obtain ⟨rfl, rfl⟩ := List.cons.inj (running.symm.trans runningToo)
          have deleted := inv.operatorDelete (keeps _ _ running root) found
          exact deleted.leave ((operatorDelete_running _ _).trans running)
  | drop c step =>
      cases step with
      | drop _ found => exact inv.operatorDelete keeps found

theorem inv_of_keeps (reachable : (system.restrict Keeps).Reachable m) : Inv m := by
  induction reachable with
  | init initial =>
      obtain rfl := initial
      exact inv_init
  | step _ step inductionHypothesis => exact inductionHypothesis.step step.1 step.2

/-- In a run whose steps destroy nothing that an execution in progress will still read,
every execution finds its facade again and restores the allocator slot. -/
theorem restores_of_keeps (reachable : (system.restrict Keeps).Reachable m) :
    ∀ left ∈ m.left, left.Restores :=
  (inv_of_keeps reachable).left

end Steps

/-- A task that runs to its end without suspending: the facade goes with the frame that
`__spawn_task` made, and the allocator of the task with the frame of the task. -/
theorem not_restores_finished :
    ¬∀ m, system.Reachable m → ∀ left ∈ m.left, left.Restores := by
  intro always
  have called := System.Reachable.step (.init rfl : system.Reachable {}) (.call 1 (.call 1))
  have spawned := called.step (.spawn 0 0 rfl (.spawn 0 0 rfl rfl rfl))
  have executed := spawned.step (.execute 0 rfl (.execute 0 rfl))
  have finished := executed.step (.finishRoot rfl rfl (.finishRoot rfl rfl rfl))
  have restores := always _ finished _ (List.mem_singleton_self _)
  exact absurd restores.existed (by decide)

/-- A task that suspends in an awaiter of its own. -/
theorem restores_suspended : ∃ m : Machine, (system.restrict Keeps).Reachable m ∧
    m.left.length = 1 ∧ ∀ left ∈ m.left, left.Restores := by
  have go {m next : Machine} {event : Event} (reached : (system.restrict Keeps).Reachable m)
      (step : Step m event next) (keeps : Keeps m event) :
      (system.restrict Keeps).Reachable next :=
    reached.step ⟨keeps, step⟩
  have called := go (.init rfl) (.call 1 (.call 1)) trivial
  have spawned := go called (.spawn 0 0 rfl (.spawn 0 0 rfl rfl rfl)) trivial
  have executed := go spawned (.execute 0 rfl (.execute 0 rfl)) nofun
  have awaiting := go executed (.construct 1 (some 0) rfl fun _ same =>
    Option.some.inj same ▸ rfl) trivial
  have suspended := go awaiting (.suspend 1 rfl rfl (.suspend 1 rfl rfl)) trivial
  exact ⟨_, suspended, rfl, restores_of_keeps suspended⟩

end NgrCore.TaskFrame.Restore
