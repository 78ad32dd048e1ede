import NgrCore.CompletionQueue
import NgrCore.Scheduler.Accounting

/-!
Owns the connection of the scheduler's lists to the ring memory: the lists are
what the counters, the index array and the slots of the two rings stand for.

Proves that a call of `__submission_queue::_M_submit` on the ring memory is a
submission of the scheduler, and that every step of
`__completion_queue::_M_complete` on the ring memory is matched by the
scheduler.
-/

namespace NgrCore.Scheduler

open NgrCore.Library

/-! ### Submission -/

/-- A submission in normal mode that has published `r` operations. -/
def submitting (s : State) (site : Site) (max r : Nat) (sq ioPending : List Addr) : State :=
  { s with
    kernel.sq := sq
    loop.ioPending := ioPending
    loop.pc := .submit site false false max r }

section Submission

variable {config : Config} {shape : RingShape}
  {fill : Addr → SubmissionQueue.Sqe → SubmissionQueue.Sqe} {s : State} {site : Site}

/-- The loop takes operations one by one as long as there is room. -/
theorem submit_run (s : State) (site : Site) (max : Nat) (taken rest sq : List Addr) (r : Nat)
    (room : r + taken.length ≤ max) :
    (system config).Continues (submitting s site max r sq (taken ++ rest))
      (submitting s site max (r + taken.length) (sq ++ taken) rest) := by
  induction taken generalizing sq r with
  | nil =>
      rw [List.append_nil]
      exact .refl
  | cons op taken inductionHypothesis =>
      rw [List.length_cons] at room ⊢
      have more : r < max := by omega
      have published : Step config (submitting s site max r sq (op :: taken ++ rest)) .tau
          (submitting s site max (r + 1) (sq ++ [op]) (taken ++ rest)) :=
        .submit (.publish rfl rfl more rfl)
      have others := inductionHypothesis (sq ++ [op]) (r + 1) (by omega)
      rw [List.append_assoc, Nat.add_assoc, Nat.add_comm 1] at others
      exact .head ⟨_, published⟩ others

/-- When the ring memory stands for the scheduler's list, and the kernel consumes
nothing meanwhile, what a call of `__submission_queue::_M_submit` does to the
memory and to its queue is what the scheduler's submission does. -/
theorem submission_refines {start state : SubmissionQueue.State} {r : BitVec 32}
    (reachable : (system config).Reachable s) (pc : s.loop.pc = .submitBegin site false)
    (slots : config.sqEntries = shape.size)
    (begins : SubmissionQueue.Start shape (available config s.loop) s.loop.ioPending start)
    (indexed : start.ring.Indexed shape) (stands : start.ring.entries shape = s.kernel.sq)
    (run : (SubmissionQueue.undisturbed shape fill start).Reachable state)
    (returned : state.pc = .returned r) :
    state.ring.Indexed shape ∧
      state.queue.Represents state.next (s.loop.ioPending.drop r.toNat) ∧
      (system config).Continues s { s with
        kernel.sq := state.ring.entries shape
        loop.ioPending := s.loop.ioPending.drop r.toNat
        loop.nTotalSubmit := s.loop.nTotalSubmit + r.toNat
        loop.nNewlySubmit := s.loop.nNewlySubmit + r.toNat
        loop.drPending := []
        loop.pc := .timers site false s.loop.drPending } := by
  have accounting := (reachable_accounted reachable).at pc
  have ring : s.kernel.sq.length ≤ config.sqEntries := accounting.ring
  rcases SubmissionQueue.submit_undisturbed begins indexed run returned with
    ⟨own, entries, count⟩
  have rest := (SubmissionQueue.submit_safe begins run.of_restrict).1.rest r returned
  rw [stands, ← slots, ← submitMax_eq ring] at count
  have short : (s.loop.ioPending.take r.toNat).length = r.toNat := by
    rw [List.length_take]
    omega
  have begun : Step config s .tau
      (submitting s site (submitMax config s.loop s.kernel) 0 s.kernel.sq s.loop.ioPending) :=
    .submit (.begin pc)
  have taken : (system config).Continues _ _ := submit_run s site (submitMax config s.loop s.kernel)
    (s.loop.ioPending.take r.toNat) (s.loop.ioPending.drop r.toNat) s.kernel.sq 0 (by omega)
  rw [stands] at entries
  rw [List.take_append_drop, short, ← entries, Nat.zero_add] at taken
  have finished : s.loop.ioPending.drop r.toNat = [] ∨
      submitMax config s.loop s.kernel ≤ r.toNat := by
    rw [List.drop_eq_nil_iff]
    omega
  have added : Step config (submitting s site (submitMax config s.loop s.kernel) r.toNat
      (state.ring.entries shape) (s.loop.ioPending.drop r.toNat)) .submitted _ :=
    .submit (.done rfl finished)
  exact ⟨own, rest, .head ⟨_, begun⟩ (taken.tail ⟨_, added⟩)⟩

end Submission

/-! ### Completion -/

/-- The loop after a call of `__completion_queue::_M_complete` that returns
`n`. -/
def Loop.Drained (loop : Loop) (site : Site) (total : Int) (n : Nat) : Prop :=
  match site with
  | .loop => loop.pc = .stopLoad ∧ loop.nTotalSubmit = total - n
  | .final => loop.pc = .finished n ∧ loop.nTotalSubmit = total

/-- The loop during such a call, which has counted `n` CQEs. -/
def Loop.Draining (loop : Loop) (site : Site) (total : Int) (n : Nat) : Prop :=
  loop.pc = .complete site n ∧ loop.nTotalSubmit = total

/-- The scheduler is where the call on the ring memory is. Its list holds the
CQEs posted and not handed out, and it is done as soon as the call has loaded a
tail that shows nothing more. -/
structure Completing (site : Site) (total : Int) (state : CompletionQueue.State) (s : State) :
    Prop where
  stands : s.kernel.cq = state.posted.drop state.handled.length
  here : match state.pc with
    | .idle => False
    | .loadTail _ => s.loop.Draining site total
        (terminals (state.handled.drop state.handledAtCall))
    | .loop head tail _ => if head = tail
        then s.loop.Drained site total (terminals (state.handled.drop state.handledAtCall))
        else s.loop.Draining site total (terminals (state.handled.drop state.handledAtCall))
    | .reload _ _ => s.loop.Draining site total
        (terminals (state.handled.drop state.handledAtCall))
    | .returned n => s.loop.Drained site total n.toNat

section Completion

variable {config : Config} {shape : RingShape} {site : Site} {total : Int}
  {start state next : CompletionQueue.State} {s : State}

theorem drain_done {n : Nat} (draining : s.loop.Draining site total n)
    (empty : s.kernel.cq = []) :
    ∃ after, (system config).Continues s after ∧ after.kernel = s.kernel ∧
      after.loop.Drained site total n := by
  rcases draining with ⟨pc, same⟩
  cases site with
  | loop =>
      have done : Step config s .tau { s with
          loop.nTotalSubmit := s.loop.nTotalSubmit - n
          loop.pc := .stopLoad } := .complete (.doneLoop pc empty)
      refine ⟨_, .single ⟨_, done⟩, rfl, rfl, ?_⟩
      rw [same]
  | final =>
      have done : Step config s .tau { s with loop.pc := .finished n } :=
        .complete (.doneFinal pc empty)
      exact ⟨_, .single ⟨_, done⟩, rfl, rfl, same⟩

/-- A load of the tail decides whether the scheduler is done. -/
theorem completing_load {head n : BitVec 32}
    (inv : ∃ base published, CompletionQueue.Inv shape base published state ∧
      head = counter (base + state.handled.length))
    (stands : s.kernel.cq = state.posted.drop state.handled.length)
    (draining : s.loop.Draining site total
      (terminals (state.handled.drop state.handledAtCall))) :
    ∃ after, (system config).Continues s after ∧
      Completing site total { state with
        pc := .loop head state.ring.tail n
        seen := state.posted.length } after := by
  by_cases empty : head = state.ring.tail
  · rcases inv with ⟨base, published, inv, headEq⟩
    have small := shape.size_lt
    have room := inv.room
    have behind := inv.behind
    have length := inv.inOrder.length_le
    have all : base + state.handled.length = base + state.posted.length := by
      apply counter_inj (by omega) (by omega)
      rw [← headEq, empty, inv.tail]
    have nothing : s.kernel.cq = [] := by
      rw [stands]
      exact List.drop_eq_nil_of_le (by omega)
    rcases drain_done draining nothing with ⟨after, run, kernel, drained⟩
    refine ⟨after, run, ?_, ?_⟩
    · rw [kernel]
      exact stands
    · simp only [empty, if_true]
      exact drained
  · refine ⟨s, .refl, stands, ?_⟩
    simp only [empty, if_false]
    exact draining

/-- Every step of a call on the ring memory, and every post of the kernel during
it, is matched by the scheduler. -/
theorem completion_simulates {label : CompletionQueue.Label}
    (begins : CompletionQueue.Start shape start)
    (reachable : (CompletionQueue.system shape start).Reachable state)
    (slots : config.cqEntries = shape.size) (completing : Completing site total state s)
    (step : CompletionQueue.Step shape state label next) (inside : label ≠ .call)
    (owed : ∀ cqe, label = .post cqe → cqe.userData ∈ s.kernel.inflight) :
    ∃ after, (system config).Continues s after ∧ Completing site total next after := by
  rcases CompletionQueue.reachable_inv begins reachable with ⟨published, inv⟩
  have small := shape.size_lt
  have room := inv.room
  have behind := inv.behind
  have length := inv.inOrder.length_le
  have position := inv.here
  rcases completing with ⟨stands, here⟩
  cases step with
  | call => exact absurd rfl inside
  | loadTail pc =>
      simp only [CompletionQueue.AtPc, pc] at position here
      exact completing_load ⟨_, published, inv, position.1⟩ stands here
  | reload pc =>
      simp only [CompletionQueue.AtPc, pc] at position here
      exact completing_load ⟨_, published, inv, position.1⟩ stands here
  | dispatch pc more read =>
      rename_i head tail n cqe
      rcases inv.read pc more with ⟨_, _, oldest⟩
      simp only [CompletionQueue.AtPc, pc] at position here
      rw [if_neg more] at here
      rw [← read] at oldest
      rcases List.getElem?_eq_some_iff.mp oldest with ⟨bound, same⟩
      have split : s.kernel.cq = cqe :: state.posted.drop (state.handled.length + 1) := by
        rw [stands, List.drop_eq_getElem_cons bound, same]
      have handled : Step config s (.handle []) { s with
          kernel.cq := state.posted.drop (state.handled.length + 1)
          loop.ioPending := pushLocal [] s.loop.ioPending
          loop.pc := .complete site (terminals (state.handled.drop state.handledAtCall) +
            if cqe.more then 0 else 1) } :=
        .complete (.handle [] here.1 split)
      have counted : terminals ((state.handled ++ [cqe]).drop state.handledAtCall) =
          terminals (state.handled.drop state.handledAtCall) + if cqe.more then 0 else 1 := by
        rw [List.drop_append_of_le_length (by omega), terminals_append, terminals_cons,
          terminals_nil, Nat.zero_add]
      refine ⟨_, .single ⟨_, handled⟩, ?_, ?_, here.2⟩
      · show _ = state.posted.drop (state.handled ++ [cqe]).length
        rw [List.length_append]
        rfl
      · show LoopPc.complete site _ =
          .complete site (terminals ((state.handled ++ [cqe]).drop state.handledAtCall))
        rw [counted]
  | publish pc drained =>
      rename_i head tail n
      have result := (CompletionQueue.complete_drains begins
        (reachable.step (.publish pc drained))).1.result n rfl
      simp only [pc] at here
      rw [if_pos drained, ← result] at here
      exact ⟨s, .refl, stands, here⟩
  | post free =>
      rename_i cqe
      have distance : (state.ring.tail - state.ring.head).toNat =
          state.posted.length - published := by
        rw [inv.head, inv.tail, counter_sub (by omega) (by omega)]
        omega
      rw [BitVec.lt_def, distance, shape.nSlot_toNat] at free
      have fits : s.kernel.cq.length < config.cqEntries := by
        rw [stands, List.length_drop]
        omega
      have longer : s.kernel.cq ++ [cqe] =
          (state.posted ++ [cqe]).drop state.handled.length := by
        rw [List.drop_append_of_le_length length, stands]
      have consumed := owed cqe rfl
      have kernel : ∃ inflight, Step config s .tau { s with
          kernel.inflight := inflight
          kernel.cq := s.kernel.cq ++ [cqe] } := by
        cases more : cqe.more with
        | true => exact ⟨_, .kernel (.postMore cqe consumed fits more)⟩
        | false => exact ⟨_, .kernel (.postLast cqe consumed fits more)⟩
      rcases kernel with ⟨inflight, posted⟩
      exact ⟨_, .single ⟨_, posted⟩, longer, here⟩

end Completion

end NgrCore.Scheduler
