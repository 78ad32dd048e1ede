import NgrCore.Library.Simulation
import NgrCore.Scheduler.State

/-!
Owns the life of an io operation as the scheduler promises it: the stages it goes through, the
moves that take it from one to the next, and how often it is handed over and settled in a run.

Proves that a picture of the scheduler, its lists and nothing else, keeps that promise as long
as nobody hands over an operation that the scheduler still has.
-/

namespace NgrCore.Scheduler

open NgrCore.Library

/-- Where an operation is. `remote` is a remote `_M_submit` or its queue, `pending` is
`__io_pending_`, `published` the submission ring, and `finished` an operation whose last CQE
waits in the completion ring. -/
inductive Stage
  | idle
  | remote
  | pending
  | published
  | inflight
  | finished
deriving Repr, DecidableEq

/-- What a step does to operations. `pushes` are handed over by the completion function it
calls. -/
inductive Move
  | quiet
  | hand (op : Addr)
  | reject (op : Addr)
  | accept (ops : List Addr)
  | publish (op : Addr)
  | stop (op : Addr) (pushes : List Addr)
  | consume (ops : List Addr)
  | post (cqe : Cqe)
  | handle (cqe : Cqe) (pushes : List Addr)
  | push (pushes : List Addr)
deriving Repr, DecidableEq

/-- An operation that is meant leaves one stage for another. -/
def Stage.advance (stage : Stage) (meant : Bool) (source target : Stage) : Option Stage :=
  if meant then if stage = source then some target else none else some stage

/-- A CQE with `F_MORE` reaches its operation in flight, or before its last CQE. -/
def Stage.receive (stage : Stage) (meant : Bool) : Option Stage :=
  if meant then if stage = .inflight ∨ stage = .finished then some stage else none
  else some stage

/-- The life of one operation: its stage after a move, unless the move must not happen then. -/
def Move.next (op : Addr) (stage : Stage) : Move → Option Stage
  | .quiet => some stage
  | .hand other => stage.advance (op = other) .idle .remote
  | .reject other => stage.advance (op = other) .remote .idle
  | .accept ops => stage.advance (op ∈ ops) .remote .pending
  | .publish other => stage.advance (op = other) .pending .published
  | .stop other pushes =>
      (stage.advance (op = other) .pending .idle).bind fun after =>
        after.advance (op ∈ pushes) .idle .pending
  | .consume ops => stage.advance (op ∈ ops) .published .inflight
  | .post cqe =>
      stage.advance (op = cqe.userData) .inflight (if cqe.more then .inflight else .finished)
  | .handle cqe pushes =>
      (if cqe.more then stage.receive (op = cqe.userData)
        else stage.advance (op = cqe.userData) .finished .idle).bind fun after =>
          after.advance (op ∈ pushes) .idle .pending
  | .push pushes => stage.advance (op ∈ pushes) .idle .pending

/-- All operations at once, when some are pending at the start. -/
def lifecycle (pending : List Addr) : System (Addr → Stage) Move where
  Init stage := stage = fun op => if op ∈ pending then .pending else .idle
  Step stage move after := ∀ op, move.next op (stage op) = some (after op)

/-! ### Counting -/

def Move.hands (op : Addr) : Move → Nat
  | .hand other => if op = other then 1 else 0
  | .stop _ pushes => if op ∈ pushes then 1 else 0
  | .handle _ pushes => if op ∈ pushes then 1 else 0
  | .push pushes => if op ∈ pushes then 1 else 0
  | _ => 0

/-- How often a move settles it: rejects it, stops it, or hands it its last CQE. -/
def Move.settles (op : Addr) : Move → Nat
  | .reject other => if op = other then 1 else 0
  | .stop other _ => if op = other then 1 else 0
  | .handle cqe _ => if op = cqe.userData ∧ cqe.more = false then 1 else 0
  | _ => 0

/-- The scheduler has the operation. -/
def Stage.inside (stage : Stage) : Nat := if stage = .idle then 0 else 1

/-- How often the moves hand the operation over. -/
def handed (op : Addr) (moves : List Move) : Nat := (moves.map (Move.hands op)).sum

def settled (op : Addr) (moves : List Move) : Nat := (moves.map (Move.settles op)).sum

section Counting

variable {op : Addr} {stage after : Stage}

theorem advance_inside {meant : Bool} {source target : Stage}
    (advanced : stage.advance meant source target = some after) :
    after = (if meant then target else stage) ∧ (meant = true → stage = source) := by
  unfold Stage.advance at advanced
  split at advanced
  · rename_i mine
    split at advanced
    · rename_i here
      rw [if_pos mine]
      exact ⟨(Option.some.inj advanced).symm, fun _ => here⟩
    · exact absurd advanced nofun
  · rename_i other
    rw [if_neg other]
    exact ⟨(Option.some.inj advanced).symm, fun mine => absurd mine other⟩

theorem receive_inside {meant : Bool} (received : stage.receive meant = some after) :
    after = stage := by
  unfold Stage.receive at received
  split at received
  · split at received
    · exact (Option.some.inj received).symm
    · exact absurd received nofun
  · exact (Option.some.inj received).symm

/-- Completion functions hand operations over that are idle. -/
theorem pushes_balance {pushes : List Addr}
    (pushed : stage.advance (op ∈ pushes) .idle .pending = some after) :
    stage.inside + (if op ∈ pushes then 1 else 0) = after.inside := by
  obtain ⟨same, idle⟩ := advance_inside pushed
  subst same
  by_cases mine : op ∈ pushes
  · have here := idle (decide_eq_true mine)
    simp [mine, here, Stage.inside]
  · simp [mine]

/-- A move balances: what comes in or was inside is settled or is inside. -/
theorem Move.balance {move : Move} (moved : move.next op stage = some after) :
    stage.inside + move.hands op = move.settles op + after.inside := by
  have simple : ∀ {meant : Bool} {source target : Stage},
      stage.advance meant source target = some after → source.inside = target.inside →
      stage.inside = after.inside := by
    intro meant source target advanced alike
    obtain ⟨same, here⟩ := advance_inside advanced
    subst same
    cases meant with
    | false => rfl
    | true =>
        rw [here rfl, alike]
        rfl
  cases move with
  | quiet =>
      cases moved
      simp [hands, settles]
  | hand other =>
      obtain ⟨same, here⟩ := advance_inside moved
      subst same
      by_cases mine : op = other
      · have idle := here (decide_eq_true mine)
        simp [hands, settles, mine, idle, Stage.inside]
      · simp [hands, settles, mine]
  | reject other =>
      obtain ⟨same, here⟩ := advance_inside moved
      subst same
      by_cases mine : op = other
      · have remote := here (decide_eq_true mine)
        simp [hands, settles, mine, remote, Stage.inside]
      · simp [hands, settles, mine]
  | accept ops =>
      have same := simple moved rfl
      simp [hands, settles, same]
  | publish other =>
      have same := simple moved rfl
      simp [hands, settles, same]
  | consume ops =>
      have same := simple moved rfl
      simp [hands, settles, same]
  | post cqe =>
      have same := simple moved (by split <;> rfl)
      simp [hands, settles, same]
  | push pushes =>
      have same := pushes_balance moved
      simpa [hands, settles] using same
  | stop other pushes =>
      obtain ⟨middle, stopped, pushed⟩ := Option.bind_eq_some_iff.mp moved
      have more := pushes_balance pushed
      obtain ⟨same, here⟩ := advance_inside stopped
      subst same
      by_cases mine : op = other
      · have pending := here (decide_eq_true mine)
        simp only [mine, decide_true, if_true] at more
        simp only [hands, settles, mine, pending, if_true]
        rw [← more]
        simp only [Stage.inside, reduceCtorEq, if_true, if_false]
        omega
      · simp only [mine, decide_false, Bool.false_eq_true, if_false] at more
        simp only [hands, settles, mine, if_false, Nat.zero_add]
        exact more
  | handle cqe pushes =>
      obtain ⟨middle, received, pushed⟩ := Option.bind_eq_some_iff.mp moved
      have more := pushes_balance pushed
      cases last : cqe.more with
      | true =>
          rw [last, if_pos rfl] at received
          have same := receive_inside received
          subst same
          simp only [hands, settles, last, Bool.true_eq_false, and_false, if_false, Nat.zero_add]
          exact more
      | false =>
          rw [last, if_neg nofun] at received
          obtain ⟨same, here⟩ := advance_inside received
          subst same
          by_cases mine : op = cqe.userData
          · have finished := here (decide_eq_true mine)
            simp only [mine, decide_true, if_true] at more
            simp only [hands, settles, mine, last, finished, and_self, if_true]
            rw [← more]
            simp only [Stage.inside, reduceCtorEq, if_true, if_false]
            omega
          · simp only [mine, decide_false, Bool.false_eq_true, if_false] at more
            simp only [hands, settles, mine, false_and, if_false, Nat.zero_add]
            exact more

/-- Over a run of the promise every operation balances. -/
theorem lifecycle_balance {pending : List Addr} {moves : List Move} {stages : Addr → Stage}
    (run : (lifecycle pending).Traced moves stages) (op : Addr) :
    (if op ∈ pending then 1 else 0) + handed op moves =
      settled op moves + (stages op).inside := by
  induction run with
  | init initial =>
      subst initial
      by_cases mine : op ∈ pending <;> simp [handed, settled, mine, Stage.inside]
  | step earlier step inductionHypothesis =>
      have balance := Move.balance (step op)
      simp only [handed, settled, List.map_append, List.map_cons, List.map_nil,
        List.sum_append, List.sum_cons, List.sum_nil] at inductionHypothesis ⊢
      omega

end Counting

/-! ### The picture -/

/-- The operations whose last CQE is among these. -/
def lasts (cqes : List Cqe) : List Addr :=
  (cqes.filter fun cqe => !cqe.more).map Cqe.userData

/-- Where the scheduler has operations. -/
structure View where
  remote : Addr → Prop
  pending : List Addr
  published : List Addr
  inflight : List Addr
  posted : List Cqe

/-- The scheduler has the operation at a stage. -/
def View.At (view : View) : Stage → Addr → Prop
  | .idle, _ => False
  | .remote, op => view.remote op
  | .pending, op => op ∈ view.pending
  | .published, op => op ∈ view.published
  | .inflight, op => op ∈ view.inflight
  | .finished, op => op ∈ lasts view.posted

def View.Has (view : View) (op : Addr) : Prop := ∃ place, view.At place op

/-- What the moves do to the picture. -/
inductive Moves (view : View) : Move → View → Prop
  | quiet : Moves view .quiet view
  | hand (op : Addr) :
      Moves view (.hand op) { view with remote := fun other => view.remote other ∨ other = op }
  | reject {op : Addr} (owned : view.remote op) :
      Moves view (.reject op) { view with remote := fun other => view.remote other ∧ other ≠ op }
  | accept {ops : List Addr} (owned : ∀ op ∈ ops, view.remote op) (distinct : ops.Nodup) :
      Moves view (.accept ops) { view with
        remote := fun other => view.remote other ∧ other ∉ ops
        pending := view.pending ++ ops }
  | publish {op : Addr} {rest : List Addr} (front : view.pending = op :: rest) :
      Moves view (.publish op) { view with
        pending := rest
        published := view.published ++ [op] }
  | stop {op : Addr} {rest : List Addr} (pushes : List Addr) (front : view.pending = op :: rest) :
      Moves view (.stop op pushes) { view with pending := pushLocal pushes rest }
  | consume (count : Nat) :
      Moves view (.consume (view.published.take count)) { view with
        published := view.published.drop count
        inflight := view.inflight ++ view.published.take count }
  | postMore {cqe : Cqe} (consumed : cqe.userData ∈ view.inflight) (more : cqe.more = true) :
      Moves view (.post cqe) { view with posted := view.posted ++ [cqe] }
  | postLast {cqe : Cqe} (consumed : cqe.userData ∈ view.inflight) (last : cqe.more = false) :
      Moves view (.post cqe) { view with
        inflight := view.inflight.erase cqe.userData
        posted := view.posted ++ [cqe] }
  | handle {cqe : Cqe} {rest : List Cqe} (pushes : List Addr) (front : view.posted = cqe :: rest) :
      Moves view (.handle cqe pushes) { view with
        pending := pushLocal pushes view.pending
        posted := rest }
  | push (pushes : List Addr) :
      Moves view (.push pushes) { view with pending := pushLocal pushes view.pending }

/-- Nobody hands over an operation that the scheduler has. A completion function may hand over
its own operation again once the scheduler has done with it. -/
def Fresh (view : View) : Move → Prop
  | .hand op => ¬ view.Has op
  | .stop op pushes => pushes.Nodup ∧ ∀ other ∈ pushes, other ≠ op → ¬ view.Has other
  | .handle cqe pushes => pushes.Nodup ∧
      ∀ other ∈ pushes, (other = cqe.userData → cqe.more = true) → ¬ view.Has other
  | .push pushes => pushes.Nodup ∧ ∀ other ∈ pushes, ¬ view.Has other
  | _ => True

/-- Every CQE with `F_MORE` has an operation that is in flight, or whose last CQE comes later. -/
def Owed (inflight : List Addr) : List Cqe → Prop
  | [] => True
  | cqe :: rest =>
      (cqe.more = true → cqe.userData ∈ inflight ∨ cqe.userData ∈ lasts rest) ∧
        Owed inflight rest

/-- The scheduler has no operation twice in one place, and owes a last CQE to every operation
that it gives another. -/
structure Sound (view : View) : Prop where
  pending : view.pending.Nodup
  published : view.published.Nodup
  inflight : view.inflight.Nodup
  finished : (lasts view.posted).Nodup
  owed : Owed view.inflight view.posted

/-- The operations are where their stages say, each once. -/
structure Follows (view : View) (stage : Addr → Stage) : Prop where
  places : ∀ place, place ≠ .idle → ∀ op, view.At place op ↔ stage op = place
  sound : Sound view

section Follows

variable {view next : View} {stage : Addr → Stage} {move : Move}

theorem pushLocal_eq (pushes pending : List Addr) :
    pushLocal pushes pending = pushes.reverse ++ pending := by
  unfold pushLocal
  induction pushes generalizing pending with
  | nil => rfl
  | cons op rest inductionHypothesis =>
      rw [List.foldl_cons, inductionHypothesis, List.reverse_cons, List.append_assoc]
      rfl

@[simp] theorem mem_pushLocal {pushes pending : List Addr} {op : Addr} :
    op ∈ pushLocal pushes pending ↔ op ∈ pushes ∨ op ∈ pending := by
  simp [pushLocal_eq]

theorem nodup_pushLocal {pushes pending : List Addr} (distinct : pushes.Nodup)
    (nodup : pending.Nodup) (apart : ∀ op ∈ pushes, op ∉ pending) :
    (pushLocal pushes pending).Nodup := by
  rw [pushLocal_eq, List.nodup_append]
  refine ⟨List.nodup_reverse.mpr distinct, nodup, ?_⟩
  intro op here other there same
  subst same
  exact apart op (List.mem_reverse.mp here) there

@[simp] theorem lasts_append (first second : List Cqe) :
    lasts (first ++ second) = lasts first ++ lasts second := by
  simp [lasts]

theorem lasts_more {cqe : Cqe} (more : cqe.more = true) (cqes : List Cqe) :
    lasts (cqe :: cqes) = lasts cqes := by
  simp [lasts, more]

theorem lasts_last {cqe : Cqe} (last : cqe.more = false) (cqes : List Cqe) :
    lasts (cqe :: cqes) = cqe.userData :: lasts cqes := by
  simp [lasts, last]

theorem Owed.mono {inflight later : List Addr} {cqes : List Cqe} (owed : Owed inflight cqes)
    (kept : ∀ op ∈ inflight, op ∈ later) : Owed later cqes := by
  induction cqes with
  | nil => trivial
  | cons cqe rest inductionHypothesis =>
      refine ⟨?_, inductionHypothesis owed.2⟩
      intro more
      exact (owed.1 more).imp (kept _) id

theorem Owed.concat {inflight : List Addr} {cqes : List Cqe} {last : Cqe}
    (owed : Owed inflight cqes)
    (own : last.more = true → last.userData ∈ inflight) : Owed inflight (cqes ++ [last]) := by
  induction cqes with
  | nil => exact ⟨fun more => .inl (own more), trivial⟩
  | cons cqe rest inductionHypothesis =>
      rw [List.cons_append]
      refine ⟨?_, inductionHypothesis owed.2⟩
      intro more
      apply (owed.1 more).imp id
      intro finished
      rw [lasts_append]
      exact List.mem_append_left _ finished

/-- The last CQE of an operation takes over from its place in flight. -/
theorem Owed.post {inflight : List Addr} {cqes : List Cqe} {cqe : Cqe}
    (owed : Owed inflight cqes) (last : cqe.more = false) :
    Owed (inflight.erase cqe.userData) (cqes ++ [cqe]) := by
  induction cqes with
  | nil => exact ⟨fun more => absurd (last.symm.trans more) nofun, trivial⟩
  | cons first rest inductionHypothesis =>
      rw [List.cons_append]
      refine ⟨?_, inductionHypothesis owed.2⟩
      intro more
      rw [lasts_append, lasts_last last]
      by_cases mine : first.userData = cqe.userData
      · right
        rw [mine]
        exact List.mem_append_right _ List.mem_cons_self
      · apply (owed.1 more).imp
        · exact (List.mem_erase_of_ne mine).mpr
        · exact List.mem_append_left _

/-- The scheduler has exactly the operations that are not idle. -/
theorem Follows.has (follows : Follows view stage) (op : Addr) :
    view.Has op ↔ stage op ≠ .idle := by
  constructor
  · intro has idle
    obtain ⟨place, here⟩ := has
    by_cases nowhere : place = .idle
    · subst nowhere
      exact here
    · have same := (follows.places place nowhere op).mp here
      exact nowhere (same.symm.trans idle)
  · intro busy
    exact ⟨stage op, (follows.places _ busy op).mpr rfl⟩

theorem advance_some {stage : Stage} {meant : Bool} {source target : Stage}
    (right : meant = true → stage = source) :
    stage.advance meant source target = some (if meant then target else stage) := by
  unfold Stage.advance
  cases meant with
  | false => rfl
  | true =>
      rw [if_pos rfl, if_pos (right rfl), if_pos rfl]

theorem Follows.transfer (follows : Follows view stage) (meant : Addr → Bool)
    (source target : Stage) (differ : source ≠ target)
    (right : ∀ op, meant op = true → stage op = source)
    (others : ∀ place, place ≠ source → place ≠ target → ∀ op,
      next.At place op ↔ view.At place op)
    (left : ∀ op, next.At source op ↔ view.At source op ∧ meant op = false)
    (arrived : target ≠ .idle → ∀ op, next.At target op ↔ view.At target op ∨ meant op = true)
    (sound : Sound next) :
    (∀ op, (stage op).advance (meant op) source target =
        some (if meant op then target else stage op)) ∧
      Follows next fun op => if meant op then target else stage op := by
  refine ⟨fun op => advance_some (right op), ?_, sound⟩
  intro place somewhere op
  have before := follows.places place somewhere op
  by_cases atSource : place = source
  · subst atSource
    rw [left, before]
    cases mine : meant op with
    | false => simp
    | true => simp [differ.symm]
  · by_cases atTarget : place = target
    · subst atTarget
      rw [arrived somewhere, before]
      cases mine : meant op <;> simp
    · rw [others place atSource atTarget, before]
      cases mine : meant op with
      | false => simp
      | true => simp [right op mine, Ne.symm atSource, Ne.symm atTarget]

/-- Completion functions put idle operations in front of `__io_pending_`. -/
theorem Follows.push (follows : Follows view stage) {pushes : List Addr}
    (distinct : pushes.Nodup) (idle : ∀ op ∈ pushes, stage op = .idle) :
    ∃ after, (∀ op, (stage op).advance (op ∈ pushes) .idle .pending = some (after op)) ∧
      Follows { view with pending := pushLocal pushes view.pending } after := by
  have apart : ∀ op ∈ pushes, op ∉ view.pending := by
    intro op mine there
    have pending := (follows.places .pending nofun op).mp there
    rw [idle op mine] at pending
    exact absurd pending nofun
  refine ⟨_, follows.transfer (fun op => op ∈ pushes) .idle .pending nofun ?_ ?_ ?_ ?_ ?_⟩
  · intro op mine
    exact idle op (of_decide_eq_true mine)
  · intro place _ other op
    cases place <;> first | exact Iff.rfl | exact absurd rfl other
  · intro op
    exact ⟨nofun, fun here => here.1⟩
  · intro _ op
    rw [decide_eq_true_iff, or_comm]
    exact mem_pushLocal
  · have sound := follows.sound
    exact ⟨nodup_pushLocal distinct sound.pending apart, sound.published, sound.inflight,
      sound.finished, sound.owed⟩

/-- The stage of an operation at the front of `__io_pending_`, and of no other there. -/
theorem Follows.front (follows : Follows view stage) {op : Addr} {rest : List Addr}
    (front : view.pending = op :: rest) :
    stage op = .pending ∧ op ∉ rest ∧ rest.Nodup := by
  have nodup := follows.sound.pending
  rw [front, List.nodup_cons] at nodup
  refine ⟨(follows.places .pending nofun op).mp ?_, nodup⟩
  show op ∈ view.pending
  rw [front]
  exact List.mem_cons_self

/-- The operation at the front of `__io_pending_` leaves it for another stage. -/
theorem Follows.leave (follows : Follows view stage) {op : Addr} {rest : List Addr}
    (front : view.pending = op :: rest) (target : Stage) (elsewhere : target ≠ .pending)
    (others : ∀ place, place ≠ .pending → place ≠ target → ∀ other,
      next.At place other ↔ view.At place other)
    (left : next.pending = rest)
    (arrived : target ≠ .idle → ∀ other, next.At target other ↔ view.At target other ∨ other = op)
    (sound : Sound next) :
    (∀ other, (stage other).advance (other = op) .pending target =
        some (if other = op then target else stage other)) ∧
      Follows next fun other => if other = op then target else stage other := by
  obtain ⟨here, absent, _⟩ := follows.front front
  have right : ∀ other, decide (other = op) = true → stage other = .pending := by
    intro other mine
    rw [of_decide_eq_true mine]
    exact here
  have remaining : ∀ other, next.At .pending other ↔
      view.At .pending other ∧ decide (other = op) = false := by
    intro other
    show other ∈ next.pending ↔ other ∈ view.pending ∧ _
    rw [left, front, List.mem_cons, decide_eq_false_iff_not]
    constructor
    · intro member
      exact ⟨.inr member, ne_of_mem_of_not_mem member absent⟩
    · intro both
      exact both.1.resolve_left both.2
  have moved := follows.transfer _ .pending target elsewhere.symm right others remaining
    (by
      intro somewhere other
      rw [arrived somewhere, decide_eq_true_iff])
    sound
  simpa using moved

/-- A remote `_M_submit` begins with an operation that the scheduler does not have. -/
theorem Follows.hand (follows : Follows view stage) {op : Addr} (fresh : ¬ view.Has op) :
    ∃ after, (∀ other, (Move.hand op).next other (stage other) = some (after other)) ∧
      Follows { view with remote := fun other => view.remote other ∨ other = op } after := by
  have sound := follows.sound
  have idle : stage op = .idle := not_not.mp (mt (follows.has op).mpr fresh)
  refine ⟨_, follows.transfer (fun other => other = op) .idle .remote nofun ?_ ?_ ?_ ?_
    ⟨sound.pending, sound.published, sound.inflight, sound.finished, sound.owed⟩⟩
  · intro other mine
    rw [of_decide_eq_true mine]
    exact idle
  · intro place _ other op
    cases place <;> first | exact Iff.rfl | exact absurd rfl other
  · intro other
    exact ⟨nofun, fun here => here.1⟩
  · intro _ other
    rw [decide_eq_true_iff]
    exact Iff.rfl

theorem Follows.reject (follows : Follows view stage) {op : Addr} (owned : view.remote op) :
    ∃ after, (∀ other, (Move.reject op).next other (stage other) = some (after other)) ∧
      Follows { view with remote := fun other => view.remote other ∧ other ≠ op } after := by
  have sound := follows.sound
  refine ⟨_, follows.transfer (fun other => other = op) .remote .idle nofun ?_ ?_ ?_
    (fun busy => absurd rfl busy)
    ⟨sound.pending, sound.published, sound.inflight, sound.finished, sound.owed⟩⟩
  · intro other mine
    rw [of_decide_eq_true mine]
    exact (follows.places .remote nofun op).mp owned
  · intro place other _ op
    cases place <;> first | exact Iff.rfl | exact absurd rfl other
  · intro other
    rw [decide_eq_false_iff_not]
    exact Iff.rfl

/-- `_M_accept_remote_request` takes operations that remote calls own. -/
theorem Follows.accept (follows : Follows view stage) {ops : List Addr}
    (owned : ∀ op ∈ ops, view.remote op) (distinct : ops.Nodup) :
    ∃ after, (∀ other, (Move.accept ops).next other (stage other) = some (after other)) ∧
      Follows { view with
        remote := fun other => view.remote other ∧ other ∉ ops
        pending := view.pending ++ ops } after := by
  have sound := follows.sound
  have remote : ∀ other ∈ ops, stage other = .remote := fun other member =>
    (follows.places .remote nofun other).mp (owned other member)
  have apart : ∀ other ∈ view.pending, ∀ also ∈ ops, other ≠ also := by
    intro other here also there same
    subst same
    have pending := (follows.places .pending nofun other).mp here
    exact absurd (pending.symm.trans (remote other there)) nofun
  refine ⟨_, follows.transfer (fun other => other ∈ ops) .remote .pending nofun ?_ ?_ ?_ ?_
    ⟨List.nodup_append.mpr ⟨sound.pending, distinct, apart⟩, sound.published, sound.inflight,
      sound.finished, sound.owed⟩⟩
  · intro other mine
    exact remote other (of_decide_eq_true mine)
  · intro place notRemote notPending op
    cases place <;> first
      | exact Iff.rfl
      | exact absurd rfl notRemote
      | exact absurd rfl notPending
  · intro other
    rw [decide_eq_false_iff_not]
    exact Iff.rfl
  · intro _ other
    rw [decide_eq_true_iff]
    exact List.mem_append

theorem Follows.publish (follows : Follows view stage) {op : Addr} {rest : List Addr}
    (front : view.pending = op :: rest) :
    ∃ after, (∀ other, (Move.publish op).next other (stage other) = some (after other)) ∧
      Follows { view with pending := rest, published := view.published ++ [op] } after := by
  have sound := follows.sound
  obtain ⟨here, _, nodup⟩ := follows.front front
  have unpublished : op ∉ view.published := by
    intro there
    have published := (follows.places .published nofun op).mp there
    exact absurd (here.symm.trans published) nofun
  have published : (view.published ++ [op]).Nodup := by
    simpa using sound.published.concat unpublished
  refine ⟨_, follows.leave front .published nofun ?_ rfl ?_
    ⟨nodup, published, sound.inflight, sound.finished, sound.owed⟩⟩
  · intro place notPending notPublished other
    cases place <;> first
      | exact Iff.rfl
      | exact absurd rfl notPending
      | exact absurd rfl notPublished
  · intro _ other
    exact List.mem_append.trans (or_congr_right List.mem_singleton)

/-- In stop mode the operation at the front is completed, and its completion function may hand
operations over. -/
theorem Follows.stop (follows : Follows view stage) {op : Addr} {rest pushes : List Addr}
    (front : view.pending = op :: rest) (fresh : Fresh view (.stop op pushes)) :
    ∃ after, (∀ other, (Move.stop op pushes).next other (stage other) = some (after other)) ∧
      Follows { view with pending := pushLocal pushes rest } after := by
  have sound := follows.sound
  obtain ⟨_, _, nodup⟩ := follows.front front
  have remains : Sound { view with pending := rest } :=
    ⟨nodup, sound.published, sound.inflight, sound.finished, sound.owed⟩
  have stopped := follows.leave front .idle nofun
    (by
      intro place notPending _ other
      cases place <;> first | exact Iff.rfl | exact absurd rfl notPending)
    rfl (fun busy => absurd rfl busy) remains
  have idle : ∀ other ∈ pushes, (if other = op then .idle else stage other) = Stage.idle := by
    intro other member
    split
    · rfl
    · rename_i different
      exact not_not.mp (mt (follows.has other).mpr (fresh.2 other member different))
  obtain ⟨after, pushed, kept⟩ := stopped.2.push fresh.1 idle
  refine ⟨after, ?_, kept⟩
  intro other
  rw [Move.next, stopped.1 other]
  exact pushed other

/-- The kernel consumes the first entries of the submission ring. -/
theorem Follows.consume (follows : Follows view stage) (count : Nat) :
    ∃ after, (∀ other, (Move.consume (view.published.take count)).next other (stage other) =
        some (after other)) ∧
      Follows { view with
        published := view.published.drop count
        inflight := view.inflight ++ view.published.take count } after := by
  have sound := follows.sound
  have split := List.take_append_drop count view.published
  have whole := sound.published
  rw [← split, List.nodup_append] at whole
  obtain ⟨taken, dropped, apart⟩ := whole
  have published : ∀ other ∈ view.published.take count, stage other = .published := by
    intro other member
    exact (follows.places .published nofun other).mp (List.mem_of_mem_take member)
  have separate : ∀ other ∈ view.inflight, ∀ also ∈ view.published.take count, other ≠ also := by
    intro other here also there same
    subst same
    have inflight := (follows.places .inflight nofun other).mp here
    exact absurd (inflight.symm.trans (published other there)) nofun
  have distinct := List.nodup_append.mpr ⟨sound.inflight, taken, separate⟩
  have owed := sound.owed.mono fun op => List.mem_append_left (view.published.take count)
  refine ⟨_, follows.transfer (fun other => other ∈ view.published.take count) .published
    .inflight nofun ?_ ?_ ?_ ?_ ⟨sound.pending, dropped, distinct, sound.finished, owed⟩⟩
  · intro other mine
    exact published other (of_decide_eq_true mine)
  · intro place notPublished notInflight op
    cases place <;> first
      | exact Iff.rfl
      | exact absurd rfl notPublished
      | exact absurd rfl notInflight
  · intro other
    rw [decide_eq_false_iff_not]
    show other ∈ view.published.drop count ↔ other ∈ view.published ∧ _
    constructor
    · intro there
      exact ⟨List.mem_of_mem_drop there, fun here => apart other here other there rfl⟩
    · intro both
      have either := both.1
      rw [← split, List.mem_append] at either
      exact either.resolve_left both.2
  · intro _ other
    rw [decide_eq_true_iff]
    exact List.mem_append

theorem Follows.postMore (follows : Follows view stage) {cqe : Cqe}
    (consumed : cqe.userData ∈ view.inflight) (more : cqe.more = true) :
    ∃ after, (∀ other, (Move.post cqe).next other (stage other) = some (after other)) ∧
      Follows { view with posted := view.posted ++ [cqe] } after := by
  have sound := follows.sound
  have same : lasts (view.posted ++ [cqe]) = lasts view.posted := by
    rw [lasts_append, lasts_more more]
    exact List.append_nil _
  refine ⟨stage, ?_, ?_, ?_⟩
  · intro other
    rw [Move.next, more, if_pos rfl, advance_some]
    · split
      · rename_i mine
        rw [of_decide_eq_true mine]
        exact congrArg some ((follows.places .inflight nofun _).mp consumed).symm
      · rfl
    · intro mine
      rw [of_decide_eq_true mine]
      exact (follows.places .inflight nofun _).mp consumed
  · intro place somewhere op
    rw [← follows.places place somewhere op]
    cases place <;> first | exact Iff.rfl | exact iff_of_eq (congrArg (op ∈ ·) same)
  · exact ⟨sound.pending, sound.published, sound.inflight, same.symm ▸ sound.finished,
      sound.owed.concat fun _ => consumed⟩

theorem Follows.postLast (follows : Follows view stage) {cqe : Cqe}
    (consumed : cqe.userData ∈ view.inflight) (last : cqe.more = false) :
    ∃ after, (∀ other, (Move.post cqe).next other (stage other) = some (after other)) ∧
      Follows { view with
        inflight := view.inflight.erase cqe.userData
        posted := view.posted ++ [cqe] } after := by
  have sound := follows.sound
  have inflight := (follows.places .inflight nofun _).mp consumed
  have same : lasts (view.posted ++ [cqe]) = lasts view.posted ++ [cqe.userData] := by
    rw [lasts_append, lasts_last last]
    rfl
  have unfinished : cqe.userData ∉ lasts view.posted := by
    intro there
    have finished := (follows.places .finished nofun _).mp there
    exact absurd (inflight.symm.trans finished) nofun
  have finished : (lasts (view.posted ++ [cqe])).Nodup := by
    rw [same]
    simpa using sound.finished.concat unfinished
  have remains : Sound { view with
      inflight := view.inflight.erase cqe.userData
      posted := view.posted ++ [cqe] } :=
    ⟨sound.pending, sound.published, sound.inflight.erase _, finished, sound.owed.post last⟩
  obtain ⟨advanced, kept⟩ := follows.transfer (fun other => other = cqe.userData) .inflight
    .finished nofun
    (by
      intro other mine
      rw [of_decide_eq_true mine]
      exact inflight)
    (by
      intro place notInflight notFinished op
      cases place <;> first
        | exact Iff.rfl
        | exact absurd rfl notInflight
        | exact absurd rfl notFinished)
    (by
      intro other
      rw [decide_eq_false_iff_not]
      exact (sound.inflight.mem_erase_iff).trans and_comm)
    (by
      intro _ other
      rw [decide_eq_true_iff]
      show other ∈ lasts (view.posted ++ [cqe]) ↔ _
      rw [same]
      exact List.mem_append.trans (or_congr_right List.mem_singleton))
    remains
  refine ⟨_, ?_, kept⟩
  intro other
  rw [Move.next, last, if_neg nofun]
  exact advanced other

/-- The first CQE is handed to its operation, whose completion function may hand operations
over. -/
theorem Follows.handle (follows : Follows view stage) {cqe : Cqe} {rest : List Cqe}
    {pushes : List Addr} (front : view.posted = cqe :: rest)
    (fresh : Fresh view (.handle cqe pushes)) :
    ∃ after, (∀ other, (Move.handle cqe pushes).next other (stage other) = some (after other)) ∧
      Follows { view with
        pending := pushLocal pushes view.pending
        posted := rest } after := by
  have sound := follows.sound
  have owed := sound.owed
  have finished := sound.finished
  rw [front] at owed finished
  cases last : cqe.more with
  | true =>
      have same : lasts view.posted = lasts rest := by rw [front, lasts_more last]
      rw [lasts_more last] at finished
      have reduced : Follows { view with posted := rest } stage := by
        refine ⟨?_, ⟨sound.pending, sound.published, sound.inflight, finished, owed.2⟩⟩
        intro place somewhere op
        rw [← follows.places place somewhere op]
        cases place <;> first | exact Iff.rfl | exact iff_of_eq (congrArg (op ∈ ·) same.symm)
      have idle : ∀ op ∈ pushes, stage op = .idle := by
        intro op member
        exact not_not.mp (mt (follows.has op).mpr (fresh.2 op member fun _ => last))
      obtain ⟨after, pushed, kept⟩ := reduced.push fresh.1 idle
      refine ⟨after, ?_, kept⟩
      intro other
      have received : (stage other).receive (other = cqe.userData) = some (stage other) := by
        unfold Stage.receive
        split
        · rename_i mine
          rw [of_decide_eq_true mine]
          rcases owed.1 last with there | there
          · rw [if_pos (.inl ((follows.places .inflight nofun _).mp there))]
          · rw [if_pos (.inr ((reduced.places .finished nofun _).mp there))]
        · rfl
      rw [Move.next, last, if_pos rfl, received]
      exact pushed other
  | false =>
      have same : lasts view.posted = cqe.userData :: lasts rest := by
        rw [front, lasts_last last]
      rw [lasts_last last, List.nodup_cons] at finished
      have here : stage cqe.userData = .finished := by
        apply (follows.places .finished nofun _).mp
        show cqe.userData ∈ lasts view.posted
        rw [same]
        exact List.mem_cons_self
      have remains : Sound { view with posted := rest } :=
        ⟨sound.pending, sound.published, sound.inflight, finished.2, owed.2⟩
      obtain ⟨advanced, reduced⟩ := follows.transfer (fun other => other = cqe.userData) .finished
        .idle nofun
        (by
          intro other mine
          rw [of_decide_eq_true mine]
          exact here)
        (by
          intro place notFinished _ op
          cases place <;> first | exact Iff.rfl | exact absurd rfl notFinished)
        (by
          intro other
          show other ∈ lasts rest ↔ other ∈ lasts view.posted ∧ _
          rw [decide_eq_false_iff_not, same, List.mem_cons]
          constructor
          · intro member
            exact ⟨.inr member, ne_of_mem_of_not_mem member finished.1⟩
          · intro both
            exact both.1.resolve_left both.2)
        (fun busy => absurd rfl busy) remains
      have idle : ∀ op ∈ pushes,
          (if decide (op = cqe.userData) = true then .idle else stage op) = Stage.idle := by
        intro op member
        split
        · rfl
        · rename_i different
          have unowned := fresh.2 op member fun mine => absurd (decide_eq_true mine) different
          exact not_not.mp (mt (follows.has op).mpr unowned)
      obtain ⟨after, pushed, kept⟩ := reduced.push fresh.1 idle
      refine ⟨after, ?_, kept⟩
      intro other
      rw [Move.next, last, if_neg nofun, advanced other]
      exact pushed other

/-- Every move of the picture is one that the promise allows. -/
theorem Moves.follows (moves : Moves view move next) (follows : Follows view stage)
    (fresh : Fresh view move) :
    ∃ after, (∀ op, move.next op (stage op) = some (after op)) ∧ Follows next after := by
  cases moves with
  | quiet => exact ⟨stage, fun op => rfl, follows⟩
  | hand op => exact follows.hand fresh
  | reject owned => exact follows.reject owned
  | accept owned distinct => exact follows.accept owned distinct
  | publish front => exact follows.publish front
  | stop pushes front => exact follows.stop front fresh
  | consume count => exact follows.consume count
  | postMore consumed more => exact follows.postMore consumed more
  | postLast consumed last => exact follows.postLast consumed last
  | handle pushes front => exact follows.handle front fresh
  | push pushes =>
      apply follows.push fresh.1
      intro op member
      exact not_not.mp (mt (follows.has op).mpr (fresh.2 op member))

end Follows

end NgrCore.Scheduler
