import Mathlib.Data.List.InsertIdx

/-!
Owns one `__ioring_task`: its `__n_ops_` counter, the delivery of a CQE by
`_M_complete`, the synthetic completion of `__manual_stop`, and the completion
of an `__ioring_stop_inplace` that targets it.

Proves when a cancelled operation is completed exactly once: exactly when the
cancel's CQE is handled before every CQE of the operation itself.
-/

namespace NgrCore

/-- A pointer to a task. -/
abbrev Addr := Nat

def IORING_CQE_F_MORE : BitVec 32 := 1#32 <<< 1

def ECANCELED : Int := 125

/-- `io_uring_cqe`. -/
structure Cqe where
  userData : Addr
  res : Int
  flags : BitVec 32
deriving Repr, DecidableEq

/-- The CQE announces further CQEs of the same operation. -/
def Cqe.more (cqe : Cqe) : Bool := (cqe.flags &&& IORING_CQE_F_MORE) != 0

/-- The number of CQEs that do not announce further ones. -/
def terminals (cqes : List Cqe) : Nat := cqes.countP fun cqe => !cqe.more

@[simp] theorem terminals_nil : terminals [] = 0 := rfl

@[simp] theorem terminals_cons (cqe : Cqe) (cqes : List Cqe) :
    terminals (cqe :: cqes) = terminals cqes + if cqe.more then 0 else 1 := by
  unfold terminals
  cases more : cqe.more <;> simp [more]

@[simp] theorem terminals_append (first second : List Cqe) :
    terminals (first ++ second) = terminals first + terminals second :=
  List.countP_append

theorem terminals_le_length (cqes : List Cqe) : terminals cqes ≤ cqes.length :=
  List.countP_le_length

/-- `__ioring_task`: `__n_ops_`, and the CQEs its completion function was
called with, in order. -/
structure IoringTask where
  nOps : Int := 0
  completed : List Cqe := []
deriving Repr, DecidableEq

namespace IoringTask

/-- `__n_ops_.fetch_sub(1)`: the value before and the task after. -/
def fetchSub (task : IoringTask) : Int × IoringTask :=
  (task.nOps, { task with nOps := task.nOps - 1 })

/-- A call of the completion function the task was built with. -/
def callComplete (task : IoringTask) (cqe : Cqe) : IoringTask :=
  { task with completed := task.completed ++ [cqe] }

/-- The counter part of `_M_submit`; the submit function it calls next fills
the SQE. -/
def submit (task : IoringTask) : IoringTask := { task with nOps := 1 }

/-- `_M_complete`: the task after it and the returned number. -/
def complete (task : IoringTask) (cqe : Cqe) : IoringTask × Int :=
  (if cqe.more && task.nOps == 1 then task.callComplete cqe
    else if task.fetchSub.1 == 1 then task.fetchSub.2.callComplete cqe
    else task.fetchSub.2,
    if cqe.more then 0 else 1)

/-- The task after `_M_complete` was called with each of these CQEs, in order. -/
def completeAll (task : IoringTask) (cqes : List Cqe) : IoringTask :=
  cqes.foldl (fun task cqe => (task.complete cqe).1) task

@[simp] theorem completeAll_nil (task : IoringTask) : task.completeAll [] = task := rfl

@[simp] theorem completeAll_singleton (task : IoringTask) (cqe : Cqe) :
    task.completeAll [cqe] = (task.complete cqe).1 := rfl

theorem completeAll_append (task : IoringTask) (front back : List Cqe) :
    task.completeAll (front ++ back) = (task.completeAll front).completeAll back :=
  List.foldl_append

def manualStop (op : Addr) (task : IoringTask) : IoringTask :=
  (task.complete ⟨op, -ECANCELED, 0⟩).1

/-- `__ioring_stop_inplace::__complete` on its target. -/
def stopInplaceComplete (op : Addr) (target : IoringTask) : IoringTask :=
  if target.fetchSub.1 == 1 then manualStop op target.fetchSub.2 else target.fetchSub.2

/-- A CQE with `F_MORE` is delivered and leaves the counter alone when the
operation is the only thing outstanding. -/
theorem complete_more_single (task : IoringTask) (cqe : Cqe) (more : cqe.more = true)
    (single : task.nOps = 1) : (task.complete cqe).1 = task.callComplete cqe := by
  simp [complete, more, single]

/-- A CQE with `F_MORE` decrements the counter as soon as a cancel is
outstanding too. -/
theorem complete_more_other (task : IoringTask) (cqe : Cqe) (more : cqe.more = true)
    (other : task.nOps ≠ 1) :
    (task.complete cqe).1 = { task with nOps := task.nOps - 1 } := by
  simp [complete, fetchSub, more, other]

theorem complete_last (task : IoringTask) (cqe : Cqe) (last : cqe.more = false) :
    (task.complete cqe).1 =
      if task.nOps = 1 then { nOps := 0, completed := task.completed ++ [cqe] }
      else { task with nOps := task.nOps - 1 } := by
  by_cases single : task.nOps = 1
  · simp [complete, fetchSub, callComplete, last, single]
  · simp [complete, fetchSub, last, single]

/-- The CQE `__manual_stop` makes up is a final one. -/
theorem manualStop_eq (op : Addr) (task : IoringTask) :
    manualStop op task =
      if task.nOps = 1 then
        { nOps := 0, completed := task.completed ++ [⟨op, -ECANCELED, 0⟩] }
      else { task with nOps := task.nOps - 1 } :=
  complete_last task ⟨op, -ECANCELED, 0⟩ (by simp [Cqe.more])

/-! ### A cancel in flight -/

/-- What the completion queue delivers for a task with a cancel in flight: a
CQE of the operation, or the CQE of the cancel. -/
inductive Delivery
  | main (cqe : Cqe)
  | cancel
deriving Repr, DecidableEq

/-- The task at address `op` after one delivery. -/
def deliver (op : Addr) (task : IoringTask) : Delivery → IoringTask
  | .main cqe => (task.complete cqe).1
  | .cancel => stopInplaceComplete op task

/-- The task after a sequence of deliveries. -/
def deliverAll (op : Addr) (task : IoringTask) (deliveries : List Delivery) : IoringTask :=
  deliveries.foldl (deliver op) task

/-- Both the operation and its cancel are in flight. -/
def racing : IoringTask := { nOps := 2 }

/-- The CQEs of the operation with the cancel's CQE inserted at `position`. -/
def race (mores : List Cqe) (last : Cqe) (position : Nat) : List Delivery :=
  ((mores ++ [last]).map Delivery.main).insertIdx position .cancel

/-- Along the deliveries no CQE with `F_MORE` changes the counter. -/
def MoreKeeps (op : Addr) (task : IoringTask) : List Delivery → Prop
  | [] => True
  | delivery :: rest =>
      (∀ cqe, delivery = .main cqe → cqe.more = true →
        (deliver op task delivery).nOps = task.nOps) ∧
      MoreKeeps op (deliver op task delivery) rest

/-- What a cancelled operation is promised. The last delivery of a race is the
moment at which both the operation's last CQE and the cancel's CQE have been
handled; the deliveries before it may hand multishot CQEs to the operation. -/
structure CompletedOnce (op : Addr) (deliveries : List Delivery) : Prop where
  moreKeeps : MoreKeeps op racing deliveries
  once : (deliverAll op racing deliveries).completed.length =
    (deliverAll op racing deliveries.dropLast).completed.length + 1
  drained : (deliverAll op racing deliveries).nOps = 0

@[simp] theorem deliverAll_append (op : Addr) (task : IoringTask)
    (front back : List Delivery) :
    deliverAll op task (front ++ back) = deliverAll op (deliverAll op task front) back :=
  List.foldl_append

theorem deliverAll_cons (op : Addr) (task : IoringTask) (first : Delivery)
    (rest : List Delivery) :
    deliverAll op task (first :: rest) = deliverAll op (deliver op task first) rest := rfl

@[simp] theorem deliverAll_single (op : Addr) (task : IoringTask) (delivery : Delivery) :
    deliverAll op task [delivery] = deliver op task delivery := rfl

/-- Once the cancel is gone, multishot CQEs are delivered one by one and the
counter stays at one. -/
theorem deliverAll_mores (op : Addr) (task : IoringTask) (mores : List Cqe)
    (more : ∀ cqe ∈ mores, cqe.more = true) (single : task.nOps = 1) :
    deliverAll op task (mores.map .main) =
      { nOps := 1, completed := task.completed ++ mores } := by
  induction mores generalizing task with
  | nil =>
      cases task
      simp_all [deliverAll]
  | cons cqe rest inductionHypothesis =>
      have first : deliver op task (.main cqe) = task.callComplete cqe :=
        complete_more_single task cqe (more cqe (by simp)) single
      rw [List.map_cons, deliverAll_cons, first,
        inductionHypothesis (task.callComplete cqe)
          (fun other member => more other (by simp [member])) single]
      simp [callComplete]

/-- The same run keeps the counter on every multishot CQE; the last CQE is
not one. -/
theorem moreKeeps_single (op : Addr) (task : IoringTask) (mores : List Cqe) (last : Cqe)
    (more : ∀ cqe ∈ mores, cqe.more = true) (final : last.more = false)
    (single : task.nOps = 1) : MoreKeeps op task ((mores ++ [last]).map .main) := by
  induction mores generalizing task with
  | nil =>
      refine ⟨fun cqe same isMore => ?_, trivial⟩
      obtain rfl : last = cqe := by simpa using same
      exact absurd isMore (by simp [final])
  | cons cqe rest inductionHypothesis =>
      have first : deliver op task (.main cqe) = task.callComplete cqe :=
        complete_more_single task cqe (more cqe (by simp)) single
      refine ⟨fun _ _ _ => by rw [first]; rfl, ?_⟩
      rw [first]
      exact inductionHypothesis (task.callComplete cqe)
        (fun other member => more other (by simp [member])) single

theorem race_zero (mores : List Cqe) (last : Cqe) :
    race mores last 0 = .cancel :: (mores ++ [last]).map .main := rfl

/-- The cancel's CQE first: the counter drops to one and nothing is called. -/
theorem deliver_cancel_racing (op : Addr) : deliver op racing .cancel = { nOps := 1 } := rfl

theorem completedOnce_of_cancel_first (op : Addr) (mores : List Cqe) (last : Cqe)
    (more : ∀ cqe ∈ mores, cqe.more = true) (final : last.more = false) :
    CompletedOnce op (race mores last 0) := by
  have delivered : deliverAll op racing (.cancel :: mores.map .main) =
      { nOps := 1, completed := mores } := by
    rw [deliverAll_cons, deliver_cancel_racing, deliverAll_mores op _ mores more rfl]
    rfl
  have whole : deliverAll op racing (race mores last 0) =
      { nOps := 0, completed := mores ++ [last] } := by
    rw [race_zero, List.map_append, ← List.cons_append, deliverAll_append, delivered]
    change (complete _ last).1 = _
    rw [complete_last _ last final]
    rfl
  refine ⟨?_, ?_, ?_⟩
  · exact ⟨fun cqe same => by simp at same, moreKeeps_single op _ mores last more final rfl⟩
  · have beforeLast : (race mores last 0).dropLast = .cancel :: mores.map .main := by
      rw [race_zero, List.map_append, ← List.cons_append]
      exact List.dropLast_concat
    rw [whole, beforeLast, delivered]
    simp
  · rw [whole]

/-- An `F_MORE` CQE handled before the cancel's CQE takes the cancel's share
of the counter. -/
theorem not_completedOnce_of_more_first (op : Addr) (cqe : Cqe) (rest : List Delivery)
    (more : cqe.more = true) : ¬ CompletedOnce op (.main cqe :: rest) := by
  intro promise
  have kept := promise.moreKeeps.1 cqe rfl more
  change (racing.complete cqe).1.nOps = _ at kept
  rw [complete_more_other racing cqe more (by decide)] at kept
  exact absurd kept (by decide)

/-- The cancel's CQE last, with no multishot CQE before: `__manual_stop`
decrements the counter a third time and finds zero, so nobody is called. -/
theorem not_completedOnce_of_cancel_last (op : Addr) (last : Cqe) (final : last.more = false) :
    ¬ CompletedOnce op [.main last, .cancel] := by
  intro promise
  have finished : deliver op racing (.main last) = { nOps := 1 } := by
    change (racing.complete last).1 = _
    rw [complete_last racing last final]
    rfl
  have lost : deliver op { nOps := 1 } .cancel = { nOps := -1 } :=
    manualStop_eq op { nOps := 0 }
  have drained := promise.drained
  rw [deliverAll_cons, finished, deliverAll_single, lost] at drained
  exact absurd drained (by decide)

/-- The operation's completion function runs exactly once after both CQEs, and
the counter ends at zero, exactly when the cancel's CQE comes first. -/
theorem completedOnce_iff_cancel_first (op : Addr) (mores : List Cqe) (last : Cqe)
    (position : Nat) (more : ∀ cqe ∈ mores, cqe.more = true) (final : last.more = false)
    (inside : position ≤ mores.length + 1) :
    CompletedOnce op (race mores last position) ↔ position = 0 := by
  constructor
  · intro promise
    by_contra later
    obtain ⟨position, rfl⟩ := Nat.exists_eq_succ_of_ne_zero later
    cases mores with
    | nil =>
        have zero : position = 0 := by simpa using inside
        subst zero
        exact not_completedOnce_of_cancel_last op last final promise
    | cons first rest =>
        exact not_completedOnce_of_more_first op first _ (more first (by simp)) promise
  · rintro rfl
    exact completedOnce_of_cancel_first op mores last more final

/-- A multishot accept cancelled between its CQEs, cancel handled first. -/
theorem completedOnce_multishot :
    CompletedOnce 7 (race [⟨7, 4, 2⟩, ⟨7, 5, 2⟩] ⟨7, -ECANCELED, 0⟩ 0) :=
  (completedOnce_iff_cancel_first 7 [⟨7, 4, 2⟩, ⟨7, 5, 2⟩] ⟨7, -ECANCELED, 0⟩ 0
    (by decide) (by decide) (by decide)).mpr rfl

/-- The ordinary order loses the completion: the operation's only CQE, then
the cancel's. -/
theorem cancel_after_completion_lost :
    ¬ CompletedOnce 7 (race [] ⟨7, -ECANCELED, 0⟩ 1) ∧
      deliverAll 7 racing (race [] ⟨7, -ECANCELED, 0⟩ 1) = { nOps := -1, completed := [] } :=
  ⟨not_completedOnce_of_cancel_last 7 _ (by decide), by decide⟩

end IoringTask

end NgrCore
