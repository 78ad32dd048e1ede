import NgrCore.Scheduler.RemoteSubmit
import NgrCore.Scheduler.Wakeup

/-!
Owns the end of `_M_run_until_stop`, from the exit of its loop to its return.

Proves that nothing is left pending, published or in flight, and that the last
assertion holds, in the runs where the last submission is not cut off, nobody
submits after it, and the last `io_uring_enter` waits for the last CQE of every
operation.
-/

namespace NgrCore.Scheduler

open NgrCore.Library

/-- A condition on the end of a run: the limit of the rings does not cut off the
last submission, no completion function called after it submits, and the last
`io_uring_enter` consumes all entries and waits until as many CQEs without
`F_MORE` as it asked for are posted. -/
structure EndsInOrder (s : State) (label : Label) : Prop where
  submitted : label = .submitted → s.loop.pc.site = .final → s.loop.ioPending = []
  timer : ∀ pushes, label = .timer pushes → s.loop.pc.site = .final → pushes = []
  short : label = .short → s.loop.pc.site = .loop
  wake : label = .wake → ∀ minComplete submitted deadline,
    s.loop.pc = .wait .final minComplete submitted deadline →
      minComplete ≤ terminals s.kernel.cq
  handle : ∀ pushes, label = .handle pushes → s.loop.pc.site = .final → pushes = []

/-- Once `_M_run_until_stop` returned, nothing is pending, published or in
flight, and `__n_total_submit_ == __m`. -/
def ShutdownComplete (s : State) : Prop :=
  ∀ m, s.loop.pc = .finished m →
    s.loop.ioPending = [] ∧ s.kernel.sq = [] ∧ s.kernel.inflight = [] ∧
      s.loop.nTotalSubmit = m

/-- What is known to be empty after the last submission. -/
def LoopPc.Emptied (pending : List Addr) (kernel : Kernel) : LoopPc → Prop
  | .timers .final _ _ => pending = []
  | .syscall .final _ _ => pending = []
  | .wait .final _ _ _ => pending = []
  | .returned .final rc => pending = [] ∧ (Fatal rc ∨ (kernel.sq = [] ∧ kernel.inflight = []))
  | .complete .final _ => pending = [] ∧ kernel.sq = [] ∧ kernel.inflight = []
  | .finished _ => pending = [] ∧ kernel.sq = [] ∧ kernel.inflight = [] ∧ kernel.cq = []
  | _ => True

/-- The invariant of the end of a run. -/
def Emptied (s : State) : Prop := s.loop.pc.Emptied s.loop.ioPending s.kernel

section Steps

variable {config : Config} {s next : State} {label : Label}

/-- When the last wait finds the last CQE of every operation posted, nothing is
published or in flight. -/
theorem final_wait_emptied (accounted : Accounted config s.loop s.kernel)
    (waits : s.loop.WaitsForSome) {minComplete submitted : Nat} {deadline : Option Int}
    (pc : s.loop.pc = .wait .final minComplete submitted deadline)
    (posted : minComplete ≤ terminals s.kernel.cq) :
    s.kernel.sq = [] ∧ s.kernel.inflight = [] := by
  have accounting := accounted.at pc
  have published : s.kernel.sq = [] := accounting.empty rfl
  have all : (minComplete : Int) = s.loop.nTotalSubmit := by
    unfold Loop.WaitsForSome at waits
    rw [pc] at waits
    exact waits
  have sum : s.loop.nTotalSubmit + (0 : Nat) = (outstanding s.kernel : Int) + (0 : Nat) :=
    accounting.sum
  have count : outstanding s.kernel =
      s.kernel.sq.length + s.kernel.inflight.length + terminals s.kernel.cq := rfl
  refine ⟨published, ?_⟩
  apply List.eq_nil_of_length_eq_zero
  omega

theorem CompleteStep.emptied (step : CompleteStep s label next)
    (condition : EndsInOrder s label) (emptied : Emptied s) : Emptied next := by
  unfold Emptied at emptied
  cases step with
  | begin pc => trivial
  | handle pushes pc posted =>
      rename_i site n cqe rest
      rw [pc] at emptied
      cases site with
      | loop => trivial
      | final =>
          have nothing : pushes = [] := condition.handle pushes rfl (by rw [pc]; rfl)
          subst nothing
          exact emptied
  | doneLoop pc => trivial
  | doneFinal pc drained =>
      rw [pc] at emptied
      exact ⟨emptied.1, emptied.2.1, emptied.2.2, drained⟩

theorem SubmitStep.emptied (step : SubmitStep config s label next)
    (condition : EndsInOrder s label) : Emptied next := by
  cases step with
  | done pc =>
      rename_i site stop cur max r finished
      cases site with
      | loop => trivial
      | final => exact condition.submitted rfl (by rw [pc]; rfl)
  | _ => trivial

theorem TimerStep.emptied (step : TimerStep config s label next)
    (condition : EndsInOrder s label) (emptied : Emptied s) : Emptied next := by
  unfold Emptied at emptied
  cases step with
  | manualStop pushes pc =>
      rename_i site op rest
      rw [pc] at emptied
      cases site with
      | loop => trivial
      | final =>
          have nothing : pushes = [] := condition.timer pushes rfl (by rw [pc]; rfl)
          subst nothing
          exact emptied
  | schedule pc =>
      rename_i site op rest key command
      rw [pc] at emptied
      cases site <;> exact emptied
  | stop pushes pc =>
      rename_i site op target rest command
      rw [pc] at emptied
      cases site with
      | loop => trivial
      | final =>
          have nothing : pushes = [] := condition.timer pushes rfl (by rw [pc]; rfl)
          subst nothing
          exact emptied
  | doneLoop pc => trivial
  | doneFinal pc =>
      rw [pc] at emptied
      exact emptied

/-- The last wait is where the operations in flight come to their end. -/
theorem EnterStep.emptied (step : EnterStep config s label next)
    (condition : EndsInOrder s label) (accounted : Accounted config s.loop s.kernel)
    (waits : s.loop.WaitsForSome) (emptied : Emptied s) : Emptied next := by
  have woken : ∀ {minComplete submitted : Nat} {deadline : Option Int},
      label = .wake → s.loop.pc = .wait .final minComplete submitted deadline →
      s.loop.ioPending = [] ∧ s.kernel.sq = [] ∧ s.kernel.inflight = [] := by
    intro minComplete submitted deadline wake pc
    have pending := emptied
    unfold Emptied at pending
    rw [pc] at pending
    have posted := condition.wake wake minComplete submitted deadline pc
    exact ⟨pending, final_wait_emptied accounted waits pc posted⟩
  unfold Emptied at emptied
  cases step with
  | consume pc =>
      rename_i site minComplete timeout published
      rw [pc] at emptied
      cases site <;> exact emptied
  | short count pc =>
      have loop := condition.short rfl
      rename_i site minComplete timeout fewer published
      rw [pc] at loop
      cases site with
      | loop => trivial
      | final => exact absurd loop nofun
  | fail rc pc fatal =>
      rename_i site minComplete timeout
      rw [pc] at emptied
      cases site with
      | loop => trivial
      | final => exact ⟨emptied, .inl fatal⟩
  | ready pc =>
      rename_i site minComplete submitted deadline posted
      cases site with
      | loop => trivial
      | final => exact ⟨(woken rfl pc).1, .inr (woken rfl pc).2⟩
  | timeout rc pc =>
      rename_i site minComplete submitted deadline expired result
      cases site with
      | loop => trivial
      | final => exact ⟨(woken rfl pc).1, .inr (woken rfl pc).2⟩
  | signal rc pc =>
      rename_i site minComplete submitted deadline result
      cases site with
      | loop => trivial
      | final => exact ⟨(woken rfl pc).1, .inr (woken rfl pc).2⟩
  | complete pc normal =>
      rw [pc] at emptied
      exact ⟨emptied.1, emptied.2.resolve_left normal⟩
  | _ => trivial

/-- The kernel posts only for operations in flight. -/
theorem KernelStep.emptied (step : KernelStep config s label next) (emptied : Emptied s) :
    Emptied next := by
  have same : ∀ {kernel : Kernel} {op : Addr}, op ∈ s.kernel.inflight →
      s.loop.pc.Emptied s.loop.ioPending kernel := by
    intro kernel op consumed
    have busy : s.kernel.inflight ≠ [] := List.ne_nil_of_mem consumed
    unfold Emptied at emptied
    unfold LoopPc.Emptied at emptied ⊢
    split at emptied
    · exact emptied
    · exact emptied
    · exact emptied
    · exact ⟨emptied.1, .inl (emptied.2.resolve_right fun both => busy both.2)⟩
    · exact absurd emptied.2.2 busy
    · exact absurd emptied.2.2.1 busy
    · trivial
  cases step with
  | postMore cqe consumed => exact same consumed
  | postLast cqe consumed => exact same consumed
  | tick => exact emptied

theorem Step.emptied (step : Step config s label next) (condition : EndsInOrder s label)
    (accounted : Accounted config s.loop s.kernel) (waits : s.loop.WaitsForSome)
    (emptied : Emptied s) : Emptied next := by
  cases step with
  | accept step => cases step <;> trivial
  | complete step => exact step.emptied condition emptied
  | submit step => exact step.emptied condition
  | timer step => exact step.emptied condition emptied
  | enter step => exact step.emptied condition accounted waits emptied
  | run step =>
      cases step with
      | closeRetry => exact emptied
      | _ => trivial
  | call step =>
      rcases step.frame with ⟨loop, kernel⟩
      unfold Emptied
      rw [loop, kernel]
      exact emptied
  | kernel step => exact step.emptied emptied

theorem reachable_emptied (reachable : ((system config).restrict EndsInOrder).Reachable s) :
    Emptied s := by
  apply reachable.invariant Emptied
  · intro state start
    rcases start with ⟨now, pending, rfl⟩
    trivial
  · intro state label next earlier emptied step
    exact Step.emptied step.2 step.1 (reachable_accounted earlier.of_restrict)
      (reachable_waitsForSome earlier.of_restrict) emptied

/-- In every run that ends in order the shutdown is complete. -/
theorem shutdownComplete_of_endsInOrder (config : Config) (s : State)
    (reachable : ((system config).restrict EndsInOrder).Reachable s) : ShutdownComplete s := by
  intro m pc
  have emptied : s.loop.pc.Emptied s.loop.ioPending s.kernel := reachable_emptied reachable
  rw [pc] at emptied
  rcases emptied with ⟨pending, published, inflight, drained⟩
  have sum : s.loop.nTotalSubmit + (0 : Nat) = (outstanding s.kernel : Int) + m :=
    ((reachable_accounted reachable.of_restrict).at pc).sum
  have nothing : outstanding s.kernel = 0 := by
    unfold outstanding
    rw [published, inflight, drained]
    rfl
  refine ⟨pending, published, inflight, ?_⟩
  omega

theorem EndsInOrder.quiet (s : State) : EndsInOrder s .tau :=
  ⟨nofun, nofun, nofun, nofun, nofun⟩

theorem EndsInOrder.handles (s : State) : EndsInOrder s (.handle []) :=
  ⟨nofun, nofun, nofun, nofun, fun _ same _ => (Label.handle.inj same).symm⟩

theorem EndsInOrder.adds {s : State} (pending : s.loop.pc.site = .final → s.loop.ioPending = []) :
    EndsInOrder s .submitted :=
  ⟨fun _ => pending, nofun, nofun, nofun, nofun⟩

/-- A stop is requested while operation 7, which posted one CQE with `F_MORE`, is
in flight: the last `io_uring_enter` of the small scheduler waits for one CQE. -/
theorem last_wait :
    ∃ shared call log, ((system small).restrict EndsInOrder).Reachable {
      shared := shared, call := call, log := log
      loop := { pc := .wait .final 1 0 none, nTotalSubmit := 1 }
      kernel := { inflight := [7], now := 0 } } := by
  have quiet := EndsInOrder.quiet
  have lenient : Lenient EndsInOrder := by
    refine ⟨quiet, ?_, fun _ _ => ⟨nofun, nofun, nofun, nofun, nofun⟩⟩
    intro s stop cur max r pc _ _
    apply EndsInOrder.adds
    rw [pc]
    nofun
  have woken : ∀ s, s.loop.pc = .wait .loop 1 1 none → EndsInOrder s .wake := by
    intro s pc
    refine ⟨nofun, nofun, nofun, fun _ _ _ _ final => ?_, nofun⟩
    exact absurd (pc.symm.trans final) nofun
  have leaves : ∀ s, EndsInOrder s .exit := fun _ => ⟨nofun, nofun, nofun, nofun, nofun⟩
  have asked := lenient.blocked.step ⟨quiet _, .call (.beginStop 0 rfl)⟩
  have stop := asked.step ⟨quiet _, .call (.setStop 0 rfl)⟩
  have exchanged := stop.step ⟨quiet _, .call (.exchangeAsleep 0 rfl rfl)⟩
  have posted := exchanged.step
    ⟨quiet _, .kernel (.postMore ⟨7, 1, 2⟩ (by decide) (by decide) (by decide))⟩
  have ready := posted.step ⟨woken _ rfl, .enter (.ready rfl (by decide))⟩
  have stored := ready.step ⟨quiet _, .enter (.store rfl)⟩
  have updated := stored.step ⟨quiet _, .enter (.consumed rfl (by decide))⟩
  have accepting := updated.step ⟨quiet _, .run (.again rfl)⟩
  have accepted := accept_empty quiet (accept_empty quiet accepting rfl rfl) rfl rfl
  have head := accepted.step ⟨quiet _, .accept (.doneLoop rfl)⟩
  have pass := head.step ⟨quiet _, .complete (.begin rfl)⟩
  have handled := pass.step ⟨EndsInOrder.handles _, .complete (.handle [] rfl rfl)⟩
  have drained := handled.step ⟨quiet _, .complete (.doneLoop rfl rfl)⟩
  have loaded := drained.step ⟨quiet _, .submit (.stopLoad rfl)⟩
  have submitting := loaded.step ⟨quiet _, .submit (.begin rfl)⟩
  have added := submitting.step ⟨EndsInOrder.adds fun _ => rfl, .submit (.done rfl (.inl rfl))⟩
  have tested := added.step ⟨quiet _, .timer (.doneLoop rfl)⟩
  have left := tested.step ⟨leaves _, .run (.exit rfl (.inr ⟨rfl, rfl⟩))⟩
  have closed := left.step ⟨quiet _, .run (.close rfl rfl)⟩
  have last := accept_empty quiet (accept_empty quiet closed rfl rfl) rfl rfl
  have stopping := last.step ⟨quiet _, .accept (.doneFinal rfl)⟩
  have finishing := stopping.step ⟨quiet _, .submit (.begin rfl)⟩
  have submitted := finishing.step ⟨EndsInOrder.adds fun _ => rfl, .submit (.done rfl (.inl rfl))⟩
  have entering := submitted.step ⟨quiet _, .timer (.doneFinal rfl)⟩
  have waiting := entering.step ⟨quiet _, .enter (.consume rfl (by decide))⟩
  exact ⟨_, _, _, waiting⟩

/-- The last wait ends with the last CQE of operation 7. -/
theorem shutdownComplete_multishot :
    ∃ s, s.loop.pc = .finished 1 ∧ s.loop.nTotalSubmit = 1 ∧ ShutdownComplete s := by
  have quiet := EndsInOrder.quiet
  have woken : ∀ s, terminals s.kernel.cq = 1 → s.loop.pc = .wait .final 1 0 none →
      EndsInOrder s .wake := by
    intro s one pc
    refine ⟨nofun, nofun, nofun, ?_, nofun⟩
    intro _ minComplete submitted deadline also
    have same : 1 = minComplete := (LoopPc.wait.inj (pc.symm.trans also)).2.1
    omega
  have room : 0 < 8 := by decide
  have normal : ¬ Fatal 0 := by decide
  rcases last_wait with ⟨shared, call, log, waiting⟩
  have posted := waiting.step
    ⟨quiet _, .kernel (.postLast ⟨7, 1, 0⟩ (List.mem_singleton_self 7) room rfl)⟩
  have ready := posted.step ⟨woken _ rfl rfl, .enter (.ready rfl (Nat.le_refl 1))⟩
  have completing := ready.step ⟨quiet _, .enter (.complete rfl normal)⟩
  have handled := completing.step ⟨EndsInOrder.handles _, .complete (.handle [] rfl rfl)⟩
  have finished := handled.step ⟨quiet _, .complete (.doneFinal rfl rfl)⟩
  exact ⟨_, rfl, rfl, shutdownComplete_of_endsInOrder small _ finished⟩

/-- The last wait ends with another CQE with `F_MORE`: `_M_run_until_stop`
returns while operation 7 is in flight, and its assertion fails. -/
theorem returns_with_operation_in_flight :
    ∃ s, (system small).Reachable s ∧ s.loop.pc = .finished 0 ∧ s.loop.nTotalSubmit = 1 ∧
      s.kernel.inflight = [7] ∧ ¬ ShutdownComplete s := by
  have room : 0 < 8 := by decide
  have normal : ¬ Fatal 0 := by decide
  rcases last_wait with ⟨shared, call, log, waiting⟩
  have posted := waiting.of_restrict.step
    (.kernel (.postMore ⟨7, 1, 2⟩ (List.mem_singleton_self 7) room rfl))
  have ready := posted.step (.enter (.ready rfl (Nat.le_refl 1)))
  have completing := ready.step (.enter (.complete rfl normal))
  have handled := completing.step (.complete (.handle [] rfl rfl))
  have finished := handled.step (.complete (.doneFinal rfl rfl))
  refine ⟨_, finished, rfl, rfl, rfl, ?_⟩
  intro complete
  have nothing := (complete 0 rfl).2.2.1
  exact absurd nothing (List.cons_ne_nil 7 [])

end Steps

end NgrCore.Scheduler
