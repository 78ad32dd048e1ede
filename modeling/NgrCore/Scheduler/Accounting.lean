import NgrCore.Scheduler.Step
import Mathlib.Data.List.Perm.Basic

/-!
Owns the accounting of operations in flight: what `__n_total_submit_` and
`__n_newly_submit_` count, in terms of the entries in the submission ring, the
operations the kernel holds, and the last CQEs not reaped yet.

Proves that the accounting holds in every reachable state, wherever the loop
stands, and what it says at the loop head.
-/

namespace NgrCore.Scheduler

open NgrCore.Library

/-- The published operations whose last CQE has not been reaped. -/
def outstanding (kernel : Kernel) : Nat :=
  kernel.sq.length + kernel.inflight.length + terminals kernel.cq

/-- What a position in the loop holds that the counters do not count yet, or
count no longer: entries published by the call in progress and its limit, CQEs
reaped by the call in progress, entries whose consumption is not subtracted
yet. `counts` is false where `__n_newly_submit_` is no longer kept up to date;
`consumed` is true where the ring is known to be empty. -/
structure Ledger where
  publishing : Nat := 0
  limit : Option Nat := none
  reaping : Nat := 0
  reported : Int := 0
  counts : Bool := true
  consumed : Bool := false

/-- The ledger of a position. -/
def LoopPc.ledger : LoopPc → Ledger
  | .submit _ _ _ max r => { publishing := r, limit := some max }
  | .complete site n => { reaping := n, counts := site = .loop }
  | .wait _ _ submitted _ => { reported := submitted, consumed := true }
  | .returned _ rc => { reported := max rc 0, consumed := rc = -ETIME }
  | .update rc => { reported := max rc 0, consumed := rc = -ETIME }
  | .finished m => { reaping := m, counts := false }
  | .thrown _ _ => { counts := false }
  | _ => {}

/-- The invariant of the two counters, at a position with the given ledger. -/
structure Accounting (config : Config) (total newly : Int) (ledger : Ledger)
    (kernel : Kernel) : Prop where
  sum : total + ledger.publishing = outstanding kernel + ledger.reaping
  fresh : ledger.counts = true →
    newly + ledger.publishing = kernel.sq.length + ledger.reported
  capacity : outstanding kernel + ledger.reaping ≤ config.cqEntries
  ring : kernel.sq.length ≤ config.sqEntries
  room : ∀ limit, ledger.limit = some limit →
    ledger.publishing ≤ limit ∧ total + limit ≤ config.cqEntries ∧
      kernel.sq.length + limit ≤ config.sqEntries + ledger.publishing
  empty : ledger.consumed = true → kernel.sq = []

/-- The invariant where the loop stands. -/
def Accounted (config : Config) (loop : Loop) (kernel : Kernel) : Prop :=
  Accounting config loop.nTotalSubmit loop.nNewlySubmit loop.pc.ledger kernel

section Limits

variable {config : Config} {loop : Loop} {kernel : Kernel}

theorem toUnsigned_toNat {value : Int} (positive : 0 ≤ value) (small : value < 2 ^ 32) :
    ((toUnsigned value).toNat : Int) = value := by
  unfold toUnsigned
  rw [BitVec.toNat_ofInt]
  omega

/-- The subtraction that limits a submission does not wrap. -/
theorem available_toNat (positive : 0 ≤ loop.nTotalSubmit)
    (within : loop.nTotalSubmit ≤ config.cqEntries) :
    ((available config loop).toNat : Int) = config.cqEntries - loop.nTotalSubmit := by
  have entries := config.cqEntries_lt
  have counter := toUnsigned_toNat positive (by omega)
  unfold available
  rw [BitVec.toNat_sub, BitVec.toNat_ofNat]
  omega

theorem submitMax_eq (ring : kernel.sq.length ≤ config.sqEntries) :
    submitMax config loop kernel =
      min (available config loop).toNat (config.sqEntries - kernel.sq.length) := by
  have entries := config.sqEntries_lt
  unfold submitMax
  rw [SubmissionQueue.umin_toNat, BitVec.toNat_sub, BitVec.toNat_ofNat, BitVec.toNat_ofNat]
  congr 1
  omega

/-- A submission stays within both rings. -/
theorem submitMax_le (positive : 0 ≤ loop.nTotalSubmit)
    (within : loop.nTotalSubmit ≤ config.cqEntries)
    (ring : kernel.sq.length ≤ config.sqEntries) :
    loop.nTotalSubmit + submitMax config loop kernel ≤ config.cqEntries ∧
      kernel.sq.length + submitMax config loop kernel ≤ config.sqEntries := by
  have outer := available_toNat positive within
  rw [submitMax_eq ring]
  omega

/-- All published entries are passed to the kernel. -/
theorem toSubmit_eq (newly : loop.nNewlySubmit = kernel.sq.length)
    (ring : kernel.sq.length ≤ config.sqEntries) : toSubmit loop = kernel.sq.length := by
  have entries := config.sqEntries_lt
  have value : ((toUnsigned loop.nNewlySubmit).toNat : Int) = loop.nNewlySubmit :=
    toUnsigned_toNat (by omega) (by omega)
  unfold toSubmit
  omega

end Limits

section Operations

/-- Consumption moves operations from the ring to the kernel. -/
theorem outstanding_consume (kernel : Kernel) {count : Nat}
    (published : count ≤ kernel.sq.length) :
    outstanding { kernel with
      sq := kernel.sq.drop count
      inflight := kernel.inflight ++ kernel.sq.take count } = outstanding kernel := by
  show (kernel.sq.drop count).length + (kernel.inflight ++ kernel.sq.take count).length +
    terminals kernel.cq = kernel.sq.length + kernel.inflight.length + terminals kernel.cq
  rw [List.length_drop, List.length_append, List.length_take]
  omega

/-- A last CQE moves an operation from the kernel to the completion ring. -/
theorem outstanding_postLast (kernel : Kernel) (cqe : Cqe)
    (consumed : cqe.userData ∈ kernel.inflight) (last : cqe.more = false) :
    outstanding { kernel with
      inflight := kernel.inflight.erase cqe.userData
      cq := kernel.cq ++ [cqe] } = outstanding kernel := by
  have shorter := List.length_erase_of_mem consumed
  have positive := List.length_pos_of_mem consumed
  show kernel.sq.length + (kernel.inflight.erase cqe.userData).length +
    terminals (kernel.cq ++ [cqe]) =
      kernel.sq.length + kernel.inflight.length + terminals kernel.cq
  rw [terminals_append, terminals_cons, last, terminals_nil]
  simp only [Bool.false_eq_true, if_false]
  omega

end Operations

section Ledgers

variable {config : Config} {total newly : Int} {kernel : Kernel}

theorem Accounting.exact (accounting : Accounting config total newly {} kernel) :
    total = outstanding kernel ∧ newly = kernel.sq.length ∧ 0 ≤ total ∧
      total ≤ config.cqEntries := by
  have sum := accounting.sum
  have fresh := accounting.fresh rfl
  have capacity := accounting.capacity
  simp only at sum fresh capacity
  omega

/-- Handing out a CQE moves its share from the ring to the count of the
call. -/
theorem Accounting.reap {count : Nat} {counts : Bool} {cqe : Cqe} {rest : List Cqe}
    (accounting : Accounting config total newly { reaping := count, counts := counts } kernel)
    (posted : kernel.cq = cqe :: rest) :
    Accounting config total newly
      { reaping := count + if cqe.more then 0 else 1, counts := counts }
      { kernel with cq := rest } := by
  rcases accounting with ⟨sum, fresh, capacity, ring, room, empty⟩
  have reaped : outstanding kernel =
      outstanding { kernel with cq := rest } + if cqe.more then 0 else 1 := by
    show kernel.sq.length + kernel.inflight.length + terminals kernel.cq =
      kernel.sq.length + kernel.inflight.length + terminals rest + _
    rw [posted, terminals_cons]
    omega
  rw [reaped] at sum capacity
  simp only at sum capacity
  refine ⟨?_, fresh, ?_, ring, room, empty⟩
  · simp only
    omega
  · simp only
    omega

theorem Accounting.subtract {count : Nat}
    (accounting : Accounting config total newly { reaping := count } kernel) :
    Accounting config (total - count) newly {} kernel := by
  rcases accounting with ⟨sum, fresh, capacity, ring, room, empty⟩
  simp only at sum capacity
  refine ⟨?_, fresh, ?_, ring, fun _ same => by simp at same, empty⟩
  · simp only
    omega
  · simp only
    omega

theorem Accounting.begin {limit : Nat} (accounting : Accounting config total newly {} kernel)
    (inner : kernel.sq.length + limit ≤ config.sqEntries)
    (outer : total + limit ≤ config.cqEntries) :
    Accounting config total newly { limit := some limit } kernel := by
  rcases accounting with ⟨sum, fresh, capacity, ring, room, empty⟩
  refine ⟨sum, fresh, capacity, ring, ?_, empty⟩
  intro bound same
  simp only [Option.some.injEq] at same
  subst bound
  exact ⟨Nat.zero_le _, outer, inner⟩

theorem Accounting.publish {limit count : Nat} (op : Addr)
    (accounting : Accounting config total newly
      { publishing := count, limit := some limit } kernel)
    (below : count < limit) :
    Accounting config total newly { publishing := count + 1, limit := some limit }
      { kernel with sq := kernel.sq ++ [op] } := by
  rcases accounting with ⟨sum, fresh, capacity, ring, room, empty⟩
  have bounds := room limit rfl
  have counted := fresh rfl
  have published : outstanding { kernel with sq := kernel.sq ++ [op] } =
      outstanding kernel + 1 := by
    show (kernel.sq ++ [op]).length + kernel.inflight.length + terminals kernel.cq =
      kernel.sq.length + kernel.inflight.length + terminals kernel.cq + 1
    rw [List.length_append, List.length_singleton]
    omega
  have longer : (kernel.sq ++ [op]).length = kernel.sq.length + 1 := List.length_append
  simp only at sum bounds counted capacity
  constructor
  · rw [published]
    simp only
    omega
  · intro _
    rw [longer]
    simp only
    omega
  · rw [published]
    simp only
    omega
  · rw [longer]
    omega
  · intro bound same
    simp only [Option.some.injEq] at same ⊢
    rw [longer]
    omega
  · intro consumed
    simp at consumed

theorem Accounting.add {limit count : Nat}
    (accounting : Accounting config total newly
      { publishing := count, limit := some limit } kernel) :
    Accounting config (total + count) (newly + count) {} kernel := by
  rcases accounting with ⟨sum, fresh, capacity, ring, room, empty⟩
  have counted := fresh rfl
  simp only at sum counted
  refine ⟨?_, fun _ => ?_, capacity, ring, fun _ same => by simp at same, empty⟩
  · simp only
    omega
  · simp only
    omega

/-- The kernel consumes entries; until the call's result is subtracted they
are the reported ones. -/
theorem Accounting.consume {count : Nat} (consumed : Bool)
    (accounting : Accounting config total newly {} kernel)
    (published : count ≤ kernel.sq.length)
    (drained : consumed = true → count = kernel.sq.length) :
    Accounting config total newly { reported := count, consumed := consumed }
      { kernel with
        sq := kernel.sq.drop count
        inflight := kernel.inflight ++ kernel.sq.take count } := by
  rcases accounting with ⟨sum, fresh, capacity, ring, room, empty⟩
  have conserved := outstanding_consume kernel published
  have counted := fresh rfl
  have shorter : (kernel.sq.drop count).length = kernel.sq.length - count := List.length_drop
  simp only at counted
  constructor
  · rw [conserved]
    exact sum
  · intro _
    rw [shorter]
    simp only
    omega
  · rw [conserved]
    exact capacity
  · rw [shorter]
    omega
  · intro bound same
    simp at same
  · intro whole
    rw [drained whole]
    exact List.drop_length

/-- A result that reports as much as before, of a call that emptied the
ring. -/
theorem Accounting.report {before after : Int} (consumed : Bool)
    (accounting : Accounting config total newly { reported := before, consumed := true } kernel)
    (same : after = before) :
    Accounting config total newly { reported := after, consumed := consumed } kernel := by
  subst after
  exact ⟨accounting.sum, accounting.fresh, accounting.capacity, accounting.ring,
    accounting.room, fun _ => accounting.empty rfl⟩

theorem Accounting.settle {reported : Int} {consumed : Bool}
    (accounting : Accounting config total newly
      { reported := reported, consumed := consumed } kernel) :
    Accounting config total (newly - reported) {} kernel := by
  rcases accounting with ⟨sum, fresh, capacity, ring, room, empty⟩
  have counted := fresh rfl
  simp only at counted
  refine ⟨sum, fun _ => ?_, capacity, ring, room, fun idle => by simp at idle⟩
  simp only
  omega

theorem Accounting.expire {reported : Int}
    (accounting : Accounting config total newly { reported := reported, consumed := true } kernel) :
    Accounting config total 0 {} kernel := by
  refine ⟨accounting.sum, fun _ => ?_, accounting.capacity, accounting.ring,
    accounting.room, fun idle => by simp at idle⟩
  rw [accounting.empty rfl]
  rfl

theorem Accounting.abandon {ledger : Ledger}
    (accounting : Accounting config total newly ledger kernel)
    (publishing : ledger.publishing = 0) :
    Accounting config total newly { reaping := ledger.reaping, counts := false } kernel := by
  refine ⟨?_, fun counts => by simp at counts, accounting.capacity, accounting.ring,
    fun bound same => by simp at same, fun consumed => by simp at consumed⟩
  have sum := accounting.sum
  rw [publishing] at sum
  exact sum

/-- The kernel may change what it holds as long as the number of outstanding
operations stays. -/
theorem Accounting.post {ledger : Ledger} {posted : Kernel}
    (accounting : Accounting config total newly ledger kernel)
    (same : outstanding posted = outstanding kernel) (ring : posted.sq = kernel.sq) :
    Accounting config total newly ledger posted := by
  rcases accounting with ⟨sum, fresh, capacity, inner, room, empty⟩
  constructor
  · rw [same]
    exact sum
  · rw [ring]
    exact fresh
  · rw [same]
    exact capacity
  · rw [ring]
    exact inner
  · rw [ring]
    exact room
  · rw [ring]
    exact empty

end Ledgers

section Invariant

variable {config : Config} {s next : State} {label : Label}

/-- A step between positions with the same ledger that leaves the counters and
the kernel alone. -/
theorem Accounted.move (accounted : Accounted config s.loop s.kernel)
    (ledger : next.loop.pc.ledger = s.loop.pc.ledger)
    (total : next.loop.nTotalSubmit = s.loop.nTotalSubmit)
    (newly : next.loop.nNewlySubmit = s.loop.nNewlySubmit)
    (kernel : next.kernel = s.kernel) : Accounted config next.loop next.kernel := by
  unfold Accounted
  rw [ledger, total, newly, kernel]
  exact accounted

theorem Accounted.at {pc : LoopPc} (accounted : Accounted config s.loop s.kernel)
    (position : s.loop.pc = pc) :
    Accounting config s.loop.nTotalSubmit s.loop.nNewlySubmit pc.ledger s.kernel :=
  position ▸ accounted

theorem AcceptStep.accounted (step : AcceptStep config s label next)
    (accounted : Accounted config s.loop s.kernel) :
    Accounted config next.loop next.kernel := by
  have ledger : next.loop.pc.ledger = s.loop.pc.ledger := by
    cases step <;> simp [LoopPc.ledger, *]
  cases step <;> exact accounted.move ledger rfl rfl rfl

theorem RunStep.accounted (step : RunStep config s label next)
    (accounted : Accounted config s.loop s.kernel) :
    Accounted config next.loop next.kernel := by
  have ledger : next.loop.pc.ledger = s.loop.pc.ledger := by
    cases step <;> simp [LoopPc.ledger, *]
  cases step <;> exact accounted.move ledger rfl rfl rfl

theorem TimerStep.accounted (step : TimerStep config s label next)
    (accounted : Accounted config s.loop s.kernel) :
    Accounted config next.loop next.kernel := by
  have ledger : next.loop.pc.ledger = s.loop.pc.ledger := by
    cases step <;> simp [LoopPc.ledger, *]
  cases step <;> exact accounted.move ledger rfl rfl rfl

theorem CompleteStep.accounted (step : CompleteStep s label next)
    (accounted : Accounted config s.loop s.kernel) :
    Accounted config next.loop next.kernel := by
  cases step with
  | begin pc => exact accounted.move (by rw [pc]; rfl) rfl rfl rfl
  | handle pushes pc posted => exact (accounted.at pc).reap posted
  | doneLoop pc => exact (accounted.at pc).subtract
  | doneFinal pc => exact (accounted.at pc).abandon rfl

theorem SubmitStep.accounted (step : SubmitStep config s label next)
    (accounted : Accounted config s.loop s.kernel) :
    Accounted config next.loop next.kernel := by
  cases step with
  | stopLoad pc => exact accounted.move (by rw [pc]; rfl) rfl rfl rfl
  | begin pc =>
      have idle : Accounting config s.loop.nTotalSubmit s.loop.nNewlySubmit {} s.kernel :=
        accounted.at pc
      rcases idle.exact with ⟨_, _, positive, within⟩
      rcases submitMax_le positive within idle.ring with ⟨outer, inner⟩
      exact idle.begin inner outer
  | publish pc pending below goes => exact (accounted.at pc).publish _ below
  | stop pushes pc => exact accounted.move (by rw [pc]; rfl) rfl rfl rfl
  | done pc => exact (accounted.at pc).add

/-- What the kernel consumed is subtracted once, after the call has
returned. -/
theorem EnterStep.accounted (step : EnterStep config s label next)
    (accounted : Accounted config s.loop s.kernel) :
    Accounted config next.loop next.kernel := by
  cases step with
  | lock pc => exact accounted.move (by rw [pc]; rfl) rfl rfl rfl
  | sleep pc => exact accounted.move (by rw [pc]; rfl) rfl rfl rfl
  | notified pc => exact accounted.move (by rw [pc]; rfl) rfl rfl rfl
  | skip pc => exact accounted.move (by rw [pc]; rfl) rfl rfl rfl
  | top pc => exact accounted.move (by rw [pc]; rfl) rfl rfl rfl
  | unlock pc => exact accounted.move (by rw [pc]; rfl) rfl rfl rfl
  | consume pc published =>
      have idle : Accounting config s.loop.nTotalSubmit s.loop.nNewlySubmit {} s.kernel :=
        accounted.at pc
      have whole := toSubmit_eq idle.exact.2.1 idle.ring
      exact idle.consume true published fun _ => whole
  | short count pc fewer published =>
      rename_i site minComplete timeout
      have idle : Accounting config s.loop.nTotalSubmit s.loop.nNewlySubmit {} s.kernel :=
        accounted.at pc
      have result : (LoopPc.returned site count).ledger =
          { reported := (count : Int), consumed := false } := by
        have notTime : ¬ (count : Int) = -ETIME := by
          unfold ETIME
          omega
        simp [LoopPc.ledger, notTime]
      unfold Accounted
      rw [result]
      exact idle.consume false published fun absurd => by simp at absurd
  | fail rc pc fatal =>
      rename_i site minComplete timeout
      have result : (LoopPc.returned site rc).ledger = {} := by
        have nothing : max rc 0 = 0 := by
          have negative := fatal.1
          omega
        simp [LoopPc.ledger, nothing, fatal.2.2]
      exact accounted.move (by rw [pc]; exact result) rfl rfl rfl
  | ready pc => exact (accounted.at pc).report _ (by omega)
  | timeout rc pc expired result =>
      unfold ETIME at result
      exact (accounted.at pc).report _ (by omega)
  | signal rc pc result =>
      unfold EINTR at result
      exact (accounted.at pc).report _ (by omega)
  | store pc => exact accounted.move (by rw [pc]; rfl) rfl rfl rfl
  | throwLoop pc => exact (accounted.at pc).abandon rfl
  | timedOut pc time =>
      subst time
      exact (accounted.at pc).expire
  | interrupted pc signal =>
      subst signal
      exact accounted.move (by rw [pc]; rfl) rfl rfl rfl
  | consumed pc count =>
      rename_i rc
      have positive : max rc 0 = rc := by omega
      have settled := (accounted.at pc).settle
      rw [positive] at settled
      exact settled
  | throwFinal pc => exact (accounted.at pc).abandon rfl
  | complete pc => exact (accounted.at pc).abandon rfl

theorem KernelStep.accounted (step : KernelStep config s label next)
    (accounted : Accounted config s.loop s.kernel) :
    Accounted config next.loop next.kernel := by
  cases step with
  | postMore cqe consumed free more =>
      apply Accounting.post accounted
      · show s.kernel.sq.length + s.kernel.inflight.length + terminals (s.kernel.cq ++ [_]) = _
        rw [terminals_append, terminals_cons, more]
        rfl
      · rfl
  | postLast cqe consumed free last =>
      exact Accounting.post accounted (outstanding_postLast s.kernel _ consumed last) rfl
  | tick => exact Accounting.post accounted rfl rfl

/-- Calls from outside touch neither the loop's members nor the kernel. -/
theorem CallStep.frame (step : CallStep config s label next) :
    next.loop = s.loop ∧ next.kernel = s.kernel := by
  cases step <;> exact ⟨rfl, rfl⟩

theorem Step.accounted (step : Step config s label next)
    (accounted : Accounted config s.loop s.kernel) :
    Accounted config next.loop next.kernel := by
  cases step with
  | accept step => exact step.accounted accounted
  | complete step => exact step.accounted accounted
  | submit step => exact step.accounted accounted
  | timer step => exact step.accounted accounted
  | enter step => exact step.accounted accounted
  | run step => exact step.accounted accounted
  | call step =>
      rcases step.frame with ⟨loop, kernel⟩
      rw [loop, kernel]
      exact accounted
  | kernel step => exact step.accounted accounted

theorem initial_accounted (config : Config) (now : Int) (pending : List Addr) :
    Accounted config (initial config now pending).loop (initial config now pending).kernel := by
  refine ⟨rfl, fun _ => rfl, Nat.zero_le _, Nat.zero_le _, ?_, fun _ => rfl⟩
  intro limit same
  simp [initial, LoopPc.ledger] at same

theorem reachable_accounted (reachable : (system config).Reachable s) :
    Accounted config s.loop s.kernel := by
  apply reachable.invariant fun s => Accounted config s.loop s.kernel
  · intro state start
    rcases start with ⟨now, pending, rfl⟩
    exact initial_accounted config now pending
  · intro state label next _ accounted step
    exact Step.accounted step accounted

structure InFlightAccounting (config : Config) (s : State) : Prop where
  atLoopHead : s.loop.pc = .loopHead →
    0 ≤ s.loop.nTotalSubmit ∧ s.loop.nTotalSubmit ≤ config.cqEntries ∧
      s.loop.nTotalSubmit = outstanding s.kernel ∧
      s.loop.nNewlySubmit = s.kernel.sq.length
  noWrap : ∀ site stop, s.loop.pc = .submitBegin site stop →
    ((available config s.loop).toNat : Int) = config.cqEntries - s.loop.nTotalSubmit
  capacity : outstanding s.kernel ≤ config.cqEntries

/-- In every reachable state the counters of the loop head are exact, the
unsigned subtraction that limits a submission does not wrap, and no more
operations are outstanding than the completion ring holds. -/
theorem inFlightAccounting (config : Config) (s : State)
    (reachable : (system config).Reachable s) : InFlightAccounting config s := by
  have accounted := reachable_accounted reachable
  constructor
  · intro pc
    rcases Accounting.exact (accounted.at pc) with ⟨total, newly, positive, within⟩
    exact ⟨positive, within, total, newly⟩
  · intro site stop pc
    rcases Accounting.exact (accounted.at pc) with ⟨_, _, positive, within⟩
    exact available_toNat positive within
  · have capacity := accounted.capacity
    omega

/-- The loop head of the small scheduler's second iteration, after a CQE with
`F_MORE`. -/
theorem inFlightAccounting_multishot :
    ∃ s, s.loop.pc = .loopHead ∧ s.kernel.inflight = [7] ∧ s.kernel.cq.length = 1 ∧
      InFlightAccounting small s := by
  have posted := lenient_true.blocked.step
    ⟨trivial, .kernel (.postMore ⟨7, 1, 2⟩ (by decide) (by decide) (by decide))⟩
  have ready := posted.step ⟨trivial, .enter (.ready rfl (by decide))⟩
  have stored := ready.step ⟨trivial, .enter (.store rfl)⟩
  have updated := stored.step ⟨trivial, .enter (.consumed rfl (by decide))⟩
  have accepting := updated.step ⟨trivial, .run (.again rfl)⟩
  have quiet := lenient_true.quiet
  have accepted := accept_empty quiet (accept_empty quiet accepting rfl rfl) rfl rfl
  have head := accepted.step ⟨trivial, .accept (.doneLoop rfl)⟩
  exact ⟨_, rfl, rfl, rfl, inFlightAccounting small _ head.of_restrict⟩

end Invariant

end NgrCore.Scheduler
