import NgrCore.IntrusiveHeap.History
import NgrCore.Scheduler.Timers

/-!
Owns the timers that wait in the heap: the order of the heap over a run, the timeout that its
root gives to a wait, and what ends the waiting of a timer.
-/

namespace NgrCore.Scheduler

open NgrCore.Library
open NgrCore.Library.BinaryHeap (Ordered WeakOrder)
open NgrCore.IntrusiveHeap (earlier_weakOrder)

section Definitions

variable (config : Config)

/-- The deadline of a timer. -/
def deadline (t : Addr) : Int := (config.timer t).key.deadline

/-- No timer of the heap has an earlier deadline. -/
structure Earliest (heap : List Addr) (first : Addr) : Prop where
  member : first ∈ heap
  least : ∀ t ∈ heap, deadline config first ≤ deadline config t

/-- The timeout that a time leaves to the earliest timer: none when there is no timer. -/
def Times (heap : List Addr) (read : Int) : Option Timespec → Prop
  | none => heap = []
  | some span => ∃ first, Earliest config heap first ∧
      span.nanoseconds = max (deadline config first - read) 0

/-- The timeout, or the time at which it expires, at each point of `_M_io_uring_enter`: the
clock was read at `read` and the kernel entered at `entered`. -/
def LoopPc.Timed (heap : List Addr) (start now : Int) : LoopPc → Prop
  | .unlock timeout => ∃ read, start ≤ read ∧ read ≤ now ∧ Times config heap read timeout
  | .syscall .loop _ timeout =>
      ∃ read, start ≤ read ∧ read ≤ now ∧ Times config heap read timeout
  | .wait .loop _ _ expires => ∃ read entered timeout, start ≤ read ∧ read ≤ entered ∧
      entered ≤ now ∧ Times config heap read timeout ∧
      expires = timeout.map fun span => entered + span.nanoseconds
  | _ => True

structure Waits (s : State) : Prop where
  ordered : Ordered (earlier config.timer) s.loop.heap
  begun : s.log.passStart ≤ s.kernel.now
  timed : s.loop.pc.Timed config s.loop.heap s.log.passStart s.kernel.now

end Definitions

section Steps

variable {config : Config} {s next : State} {label : Label}

/-- The root of an ordered heap is an earliest timer. -/
theorem earliest_root {heap : List Addr} {root : Addr}
    (ordered : Ordered (earlier config.timer) heap) (first : heap.head? = some root) :
    Earliest config heap root := by
  rw [List.head?_eq_getElem?] at first
  constructor
  · exact List.mem_of_getElem? first
  · intro t member
    obtain ⟨j, inside⟩ := List.getElem?_of_mem member
    have notLess := ordered.root_le (earlier_weakOrder config.timer) first j inside
    simp only [earlier, TimeSequence.lt, Bool.or_eq_false_iff, decide_eq_false_iff_not] at notLess
    unfold deadline
    omega

theorem times_root (ordered : Ordered (earlier config.timer) s.loop.heap) :
    Times config s.loop.heap s.kernel.now (rootTimeout config s.loop s.kernel) := by
  unfold rootTimeout
  cases root : s.loop.heap.head? with
  | none => exact List.head?_eq_none_iff.mp root
  | some first =>
      exact ⟨first, earliest_root ordered root, durationToTimespec_nanoseconds _⟩

theorem timerPush_ordered {heap : List Addr} (ordered : Ordered (earlier config.timer) heap)
    (op : Addr) : Ordered (earlier config.timer) (timerPush config.timer heap op) :=
  BinaryHeap.push_ordered (earlier_weakOrder config.timer) ordered op

theorem timerRemove_ordered {heap : List Addr} (ordered : Ordered (earlier config.timer) heap)
    (op : Addr) : Ordered (earlier config.timer) (timerRemove config.timer heap op).2 := by
  unfold timerRemove BinaryHeap.remove
  split
  · rename_i member
    exact BinaryHeap.removeAt_ordered (earlier_weakOrder config.timer) ordered
      (List.idxOf_lt_length_iff.mpr member)
  · exact ordered

theorem LoopPc.Timed.later {pc : LoopPc} {heap : List Addr} {start now later : Int}
    (timed : pc.Timed config heap start now) (forward : now ≤ later) :
    pc.Timed config heap start later := by
  unfold LoopPc.Timed at timed ⊢
  split
  · obtain ⟨read, after, before, times⟩ := timed
    exact ⟨read, after, before.trans forward, times⟩
  · obtain ⟨read, after, before, times⟩ := timed
    exact ⟨read, after, before.trans forward, times⟩
  · obtain ⟨read, entered, timeout, after, between, before, times⟩ := timed
    exact ⟨read, entered, timeout, after, between, before.trans forward, times⟩
  · trivial

/-- A step that moves the loop to a point without a timeout. -/
theorem Waits.move (waits : Waits config s) (heap : next.loop.heap = s.loop.heap)
    (now : next.kernel.now = s.kernel.now) (start : next.log.passStart = s.log.passStart)
    (timed : next.loop.pc.Timed config s.loop.heap s.log.passStart s.kernel.now) :
    Waits config next := by
  constructor
  · rw [heap]
    exact waits.ordered
  · rw [start, now]
    exact waits.begun
  · rw [heap, start, now]
    exact timed

theorem EnterStep.waits (step : EnterStep config s label next) (waits : Waits config s) :
    Waits config next := by
  have timed := waits.timed
  cases step with
  | top pc =>
      refine waits.move rfl rfl rfl ?_
      exact ⟨s.kernel.now, waits.begun, Int.le_refl _, times_root waits.ordered⟩
  | unlock pc =>
      rw [pc] at timed
      exact waits.move rfl rfl rfl timed
  | consume pc published =>
      refine waits.move rfl rfl rfl ?_
      rename_i site minComplete timeout
      cases site with
      | final => trivial
      | loop =>
          rw [pc] at timed
          obtain ⟨read, after, before, times⟩ := timed
          exact ⟨read, s.kernel.now, timeout, after, before, Int.le_refl _, times, rfl⟩
  | _ => exact waits.move rfl rfl rfl trivial

theorem TimerStep.waits (step : TimerStep config s label next) (waits : Waits config s) :
    Waits config next := by
  cases step with
  | schedule pc command =>
      exact ⟨timerPush_ordered waits.ordered _, waits.begun, trivial⟩
  | stop pushes pc command =>
      exact ⟨timerRemove_ordered waits.ordered _, waits.begun, trivial⟩
  | _ => exact waits.move rfl rfl rfl trivial

theorem KernelStep.waits (step : KernelStep config s label next) (waits : Waits config s) :
    Waits config next := by
  cases step with
  | postMore => exact waits.move rfl rfl rfl waits.timed
  | postLast => exact waits.move rfl rfl rfl waits.timed
  | tick later forward =>
      exact ⟨waits.ordered, waits.begun.trans forward, waits.timed.later forward⟩

theorem Step.waits (step : Step config s label next) (waits : Waits config s) :
    Waits config next := by
  cases step with
  | accept step => cases step <;> exact waits.move rfl rfl rfl trivial
  | complete step =>
      cases step with
      | begin pc => exact ⟨waits.ordered, Int.le_refl _, trivial⟩
      | _ => exact waits.move rfl rfl rfl trivial
  | submit step => cases step <;> exact waits.move rfl rfl rfl trivial
  | timer step => exact step.waits waits
  | enter step => exact step.waits waits
  | run step =>
      cases step with
      | closeRetry => exact waits
      | _ => exact waits.move rfl rfl rfl trivial
  | call step => cases step <;> exact waits.move rfl rfl rfl waits.timed
  | kernel step => exact step.waits waits

/-- Every timer of the heap still waits, but for those that a task of the list stops. -/
def Keep (config : Config) (heap after : List Addr) (tasks : History) : Prop :=
  ∀ t ∈ heap, t ∈ after ∨ ∃ op, (op, .normal) ∈ tasks ∧ config.timer op = .stop t

theorem Keep.trans {heap middle after : List Addr} {tasks more : History}
    (first : Keep config heap middle tasks) (second : Keep config middle after more) :
    Keep config heap after (tasks ++ more) := by
  intro t waiting
  rcases first t waiting with still | ⟨op, member, stops⟩
  · rcases second t still with after | ⟨op, member, stops⟩
    · exact .inl after
    · exact .inr ⟨op, List.mem_append_right _ member, stops⟩
  · exact .inr ⟨op, List.mem_append_left _ member, stops⟩

theorem TimerStep.keep (step : TimerStep config s label next) :
    ∃ tasks, next.log.handled = s.log.handled ++ tasks ∧
      Keep config s.loop.heap next.loop.heap tasks := by
  cases step with
  | manualStop => exact ⟨_, rfl, fun t waiting => .inl waiting⟩
  | schedule pc command =>
      refine ⟨_, rfl, ?_⟩
      intro t waiting
      left
      apply (timerPush_perm _ _ _).mem_iff.mpr
      exact List.mem_cons_of_mem _ waiting
  | stop pushes pc command =>
      rename_i site op target rest
      refine ⟨_, rfl, ?_⟩
      intro t waiting
      by_cases mine : t = target
      · subst mine
        exact .inr ⟨op, List.mem_singleton_self _, command⟩
      · left
        apply (timerRemove_perm _ _ _).mem_iff.mpr
        exact (List.mem_erase_of_ne mine).mpr waiting
  | doneLoop => exact ⟨[], (List.append_nil _).symm, fun t waiting => .inl waiting⟩
  | doneFinal => exact ⟨[], (List.append_nil _).symm, fun t waiting => .inl waiting⟩

theorem Step.keep (step : Step config s label next) :
    ∃ tasks, next.log.handled = s.log.handled ++ tasks ∧
      Keep config s.loop.heap next.loop.heap tasks := by
  have nothing : next.log.handled = s.log.handled → next.loop.heap = s.loop.heap →
      ∃ tasks, next.log.handled = s.log.handled ++ tasks ∧
        Keep config s.loop.heap next.loop.heap tasks := by
    intro handled heap
    refine ⟨[], by rw [handled, List.append_nil], ?_⟩
    intro t waiting
    rw [heap]
    exact .inl waiting
  cases step with
  | accept step => cases step <;> exact nothing rfl rfl
  | complete step => exact nothing step.timerFrame.handled step.timerFrame.heap
  | submit step => cases step <;> exact nothing rfl rfl
  | timer step => exact step.keep
  | enter step => exact nothing step.timerFrame.handled step.timerFrame.heap
  | run step => exact nothing step.timerFrame.handled step.timerFrame.heap
  | call step =>
      cases step with
      | rejectTimer => exact ⟨_, rfl, fun t waiting => .inl waiting⟩
      | _ => exact nothing rfl rfl
  | kernel step => exact nothing step.timerFrame.handled step.timerFrame.heap

end Steps

end NgrCore.Scheduler
