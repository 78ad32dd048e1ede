import Mathlib.Algebra.BigOperators.Group.Finset.Basic
import Mathlib.Algebra.Order.BigOperators.Group.Finset
import NgrCore.Library.WaitsFor
import NgrCore.StopSource.Nesting

/-!
Owns the destruction of callbacks by callbacks. What `__notify_` does not record is decided
here: whether the thread that waits in `_M_remove_callback` executes the callback itself,
or has another thread wait for it that does. Where neither is so, every chain of waits
ends, and every call gets to its return.
-/

namespace NgrCore.StopSource.Nesting

open Library

/-- A thread has taken a callback to execute it, for a call of `_M_request_stop`. -/
def Machine.InHand (m : Machine) (u : Thread) (k : Nat) (cb : Callback) : Prop :=
  ∃ i, ⟨k, i⟩ ∈ m.stack u ∧ (m.call ⟨k, i⟩).subject = some cb

/-- A thread destroys a callback that a thread has in hand. -/
def Machine.Awaits (m : Machine) (t u : Thread) : Prop :=
  ∃ top rest cb pc, m.stack t = top :: rest ∧ m.call top = .remove cb pc ∧
    m.InHand u top.source cb

/-- The condition on a step: when a thread begins to destroy a callback, nobody has it in
hand who is this thread or waits for it, directly or by way of others. -/
def SparesItself (m : Machine) : Event → Prop
  | .begin t frame (.remove cb _) => ∀ u, m.InHand u frame.source cb →
      ¬Relation.ReflTransGen m.Awaits u t
  | _ => True

def Event.begins : Event → Bool
  | .begin _ _ _ => true
  | _ => false

/-- The calls that have begun go on, and the bodies of callbacks end; no call begins. -/
def Machine.Proceeds (m later : Machine) : Prop :=
  (system.restrict fun _ event => event.begins = false).Continues m later

/-- A callback may destroy itself: no thread waits for itself, neither for a callback nor
for a lock, one that cannot go on waits for a callback that another thread has in hand, and
nobody executes or touches a destroyed callback. Every call gets to its return, and a
request that has set the stop flag reaches every callback before that. -/
structure MayDestroyItself (m : Machine) : Prop where
  notForItself : ∀ t frame cb, frame ∈ m.stack t → m.call frame = .remove cb .wait →
    ∀ i, ⟨frame.source, i⟩ ∈ m.stack t → ¬(m.call ⟨frame.source, i⟩).Executes cb
  goesOn : ∀ t top rest, m.stack t = top :: rest →
    (∃ event next, Step m event next ∧ (event = .move t ∨ event = .leave t)) ∨
    ∃ cb u, m.call top = .remove cb .wait ∧ u ≠ t ∧ m.InHand u top.source cb
  unlocked : ∀ t top rest, m.stack t = top :: rest → ∀ frame ∈ rest,
    (m.sources frame.source).source.holder ≠ some frame.call
  ends : ∀ frame, m.call frame ≠ .idle →
    ∃ later, m.Proceeds later ∧ (later.call frame).isReturned = true
  reaches : ∀ frame pc, m.call frame = .requestStop pc → pc.stopped = true →
    ∃ later, m.Proceeds later ∧ later.call frame = .requestStop (.returned false) ∧
      ∀ cb ∈ (m.sources frame.source).source.atStop,
        (later.sources frame.source).source.stage cb ≠ .removed →
        (cb, frame.call) ∈ (later.sources frame.source).source.executed
  reached : ∀ frame, m.call frame = .requestStop (.returned false) →
    ∀ cb ∈ (m.sources frame.source).source.atStop,
      (m.sources frame.source).source.stage cb ≠ .removed →
      (cb, frame.call) ∈ (m.sources frame.source).source.executed
  untouched : ∀ frame cb, m.call frame = .remove cb .returned →
    Quiet (m.sources frame.source) cb

/-- The invariant of the runs in which threads spare themselves. -/
structure Inv (m : Machine) : Prop where
  stacked : Stacked m
  waits : WaitsEnd m.Awaits

section Waits

variable {m next : Machine} {t u : Thread} {frame top : Frame} {rest : List Frame}
  {after : Source Nat} {call : Call} {cb : Callback}

/-- A thread whose innermost call removes nothing waits for nobody. -/
theorem not_awaits (stack : m.stack t = top :: rest)
    (other : ∀ cb pc, m.call top ≠ .remove cb pc) : ¬m.Awaits t u := by
  rintro ⟨first, below, cb, pc, known, removes, _⟩
  obtain ⟨rfl, _⟩ := List.cons.inj (stack.symm.trans known)
  exact other cb pc removes

theorem Begins.subject {s : State Nat} {i : Nat} (begins : Begins s i after call) :
    call.subject = none := by
  cases begins <;> rfl

/-- The waits after a call has begun: those of its own thread are for others that do not
wait for it. -/
theorem Stacked.waits_begin (stacked : Stacked m) (ends : WaitsEnd m.Awaits)
    (idle : m.call frame = .idle) (begins : Begins (m.sources frame.source) frame.call after call)
    (spares : SparesItself m (.begin t frame call)) :
    WaitsEnd { m.advance frame after call with
      stack := Function.update m.stack t (frame :: m.stack t) }.Awaits := by
  have absent : ∀ x, frame ∉ m.stack x := fun x member => stacked.begun x frame member idle
  -- the new call has no callback in hand, and the others are as they were
  have hands {x : Thread} {k : Nat} {cb : Callback}
      (inHand : { m.advance frame after call with
        stack := Function.update m.stack t (frame :: m.stack t) }.InHand x k cb) :
      m.InHand x k cb := by
    obtain ⟨i, member, subject⟩ := inHand
    change ⟨k, i⟩ ∈ Function.update m.stack t (frame :: m.stack t) x at member
    change ((m.advance frame after call).call ⟨k, i⟩).subject = some cb at subject
    by_cases same : (⟨k, i⟩ : Frame) = frame
    · rw [same, call_advance, Begins.subject begins] at subject
      exact absurd subject nofun
    · rw [call_other same] at subject
      refine ⟨i, ?_, subject⟩
      by_cases mine : x = t
      · rw [mine, Function.update_self] at member
        exact mine ▸ (List.mem_cons.mp member).resolve_left same
      · rwa [Function.update_of_ne mine] at member
  apply ends.begin (t := t)
  · rintro x u other ⟨top, rest, cb, pc, stack, removes, inHand⟩
    change Function.update m.stack t (frame :: m.stack t) x = top :: rest at stack
    rw [Function.update_of_ne other] at stack
    have apart : top ≠ frame := fun same => absent x (same ▸ stack ▸ List.mem_cons_self)
    change (m.advance frame after call).call top = .remove cb pc at removes
    rw [call_other apart] at removes
    exact ⟨top, rest, cb, pc, stack, removes, hands inHand⟩
  · rintro u ⟨top, rest, cb, pc, stack, removes, inHand⟩
    change Function.update m.stack t (frame :: m.stack t) t = top :: rest at stack
    rw [Function.update_self] at stack
    obtain ⟨rfl, _⟩ := List.cons.inj stack
    change (m.advance frame after call).call frame = .remove cb pc at removes
    rw [call_advance] at removes
    subst removes
    exact spares u (hands inHand)

/-- The waits after a step of a call: if it has come to have a callback in hand, it is a
request, and waits for nobody. -/
theorem Stacked.waits_move (stacked : Stacked m) (ends : WaitsEnd m.Awaits)
    (stack : m.stack t = frame :: rest)
    (move : Move (m.sources frame.source).source frame.call (m.call frame) after call) :
    WaitsEnd (m.advance frame after call).Awaits := by
  have mine : frame ∈ m.stack t := stack ▸ List.mem_cons_self
  have before {x u : Thread} (waits : (m.advance frame after call).Awaits x u) :
      m.Awaits x u ∨ u = t ∧ call.subject ≠ none := by
    obtain ⟨top, below, cb, pc, known, removes, i, member, subject⟩ := waits
    have known : m.stack x = top :: below := known
    have member : ⟨top.source, i⟩ ∈ m.stack u := member
    by_cases taker : (⟨top.source, i⟩ : Frame) = frame
    · rw [taker, call_advance] at subject
      rw [taker] at member
      exact .inr ⟨stacked.apart u t frame member mine, subject ▸ Option.some_ne_none cb⟩
    · rw [call_other taker] at subject
      by_cases same : top = frame
      · rw [same, call_advance] at removes
        subst removes
        obtain ⟨pc, earlier⟩ : ∃ pc, m.call frame = .remove cb pc := by
          generalize m.call frame = earlier at move
          cases move with
          | remove => exact ⟨_, rfl⟩
        exact .inl ⟨top, below, cb, pc, known, same ▸ earlier, i, member, subject⟩
      · rw [call_other same] at removes
        exact .inl ⟨top, below, cb, pc, known, removes, i, member, subject⟩
  cases subject : call.subject with
  | none =>
      apply ends.mono
      intro x u waits
      exact (before waits).resolve_right fun new => new.2 subject
  | some cb =>
      apply ends.awaited (t := t)
      · intro u
        have top : (m.advance frame after call).stack t = frame :: rest := stack
        apply not_awaits top
        intro other pc removes
        rw [call_advance] at removes
        rw [removes] at subject
        exact absurd subject nofun
      · intro x u waits
        exact (before waits).imp_right And.left

theorem Stacked.waits_leave (stacked : Stacked m) (ends : WaitsEnd m.Awaits)
    (stack : m.stack t = frame :: rest) :
    WaitsEnd { m with stack := Function.update m.stack t rest }.Awaits := by
  apply ends.mono
  rintro x u ⟨top, below, cb, pc, known, removes, i, member, subject⟩
  change Function.update m.stack t rest x = top :: below at known
  change ⟨top.source, i⟩ ∈ Function.update m.stack t rest u at member
  by_cases same : x = t
  · subst same
    rw [Function.update_self] at known
    obtain ⟨other, executes⟩ :=
      stacked.below x frame rest stack top (known ▸ List.mem_cons_self)
    have removes : m.call top = .remove cb pc := removes
    rw [removes] at executes
    exact executes.elim nofun nofun
  · rw [Function.update_of_ne same] at known
    refine ⟨top, below, cb, pc, known, removes, i, ?_, subject⟩
    by_cases mine : u = t
    · rw [mine, Function.update_self] at member
      exact mine ▸ stack ▸ List.mem_cons_of_mem _ member
    · rwa [Function.update_of_ne mine] at member

theorem Inv.step (inv : Inv m) {event : Event} (spares : SparesItself m event)
    (step : Step m event next) : Inv next := by
  refine ⟨inv.stacked.step step, ?_⟩
  cases step with
  | begin t frame free idle begins =>
      exact inv.stacked.waits_begin inv.waits idle begins spares
  | move t stack move => exact inv.stacked.waits_move inv.waits stack move
  | leave t stack returned => exact inv.stacked.waits_leave inv.waits stack

theorem inv_init : Inv {} where
  stacked := stacked_init
  waits := ⟨fun _ => ⟨_, fun _ ⟨_, _, _, _, stack, _⟩ => absurd stack nofun⟩⟩

theorem inv_of_spares (reachable : (system.restrict SparesItself).Reachable m) : Inv m := by
  induction reachable with
  | init initial =>
      obtain rfl := initial
      exact inv_init
  | step _ step inductionHypothesis => exact inductionHypothesis.step step.1 step.2

/-- Whoever has the callback in hand for which a thread waits is another thread. -/
theorem Inv.waits_for_other (inv : Inv m) (stack : m.stack t = frame :: rest)
    (waits : m.call frame = .remove cb .wait)
    (incomplete : (m.sources frame.source).source.completed cb ≠ true) :
    ∃ u, m.Awaits t u ∧ u ≠ t ∧ m.InHand u frame.source cb := by
  obtain ⟨i, subject⟩ := (subject_of_waiting (inv.stacked.sources frame.source) waits).resolve_left
    incomplete
  have subject : (m.call ⟨frame.source, i⟩).subject = some cb := subject
  obtain ⟨u, member⟩ := inv.stacked.present ⟨frame.source, i⟩
    (fun idle => absurd (idle ▸ subject) nofun) (by
      generalize m.call ⟨frame.source, i⟩ = call at subject
      unfold Call.subject at subject
      split at subject <;> first | rfl | exact absurd subject nofun)
  have inHand : m.InHand u frame.source cb := ⟨i, member, subject⟩
  have awaits : m.Awaits t u := ⟨frame, rest, cb, .wait, stack, waits, inHand⟩
  exact ⟨u, awaits, fun same => inv.waits.not_self (same ▸ awaits), inHand⟩

theorem Inv.notForItself (inv : Inv m) (member : frame ∈ m.stack t)
    (waits : m.call frame = .remove cb .wait) {i : Nat}
    (own : ⟨frame.source, i⟩ ∈ m.stack t) : ¬(m.call ⟨frame.source, i⟩).Executes cb := by
  obtain ⟨rest, stack⟩ := inv.stacked.top_of_remove member waits
  rintro (inside | executing)
  · exact inv.stacked.not_inside waits inside
  · have awaits : m.Awaits t t :=
      ⟨frame, rest, cb, .wait, stack, waits, i, own, by rw [executing]; rfl⟩
    exact inv.waits.not_self awaits

theorem Inv.goesOn (inv : Inv m) (stack : m.stack t = frame :: rest) :
    (∃ event next, Step m event next ∧ (event = .move t ∨ event = .leave t)) ∨
    ∃ cb u, m.call frame = .remove cb .wait ∧ u ≠ t ∧ m.InHand u frame.source cb := by
  have begun := inv.stacked.begun t frame (stack ▸ List.mem_cons_self)
  by_cases returned : (m.call frame).isReturned = true
  · exact .inl ⟨_, _, .leave t stack returned, .inr rfl⟩
  by_cases completed : ∀ cb, m.call frame = .remove cb .wait →
      (m.sources frame.source).source.completed cb = true
  · obtain ⟨after, call, move⟩ := exists_move (m.sources frame.source).source frame.call begun
      (by simpa using returned) completed
    exact .inl ⟨_, _, .move t stack move, .inl rfl⟩
  · push Not at completed
    obtain ⟨cb, waits, incomplete⟩ := completed
    obtain ⟨u, _, other, inHand⟩ := inv.waits_for_other stack waits incomplete
    exact .inr ⟨cb, u, waits, other, inHand⟩

end Waits

section Ends

variable {m next later : Machine} {t : Thread} {frame top other : Frame} {rest : List Frame}
  {after : Source Nat} {call : Call} {sources calls : Finset Nat}

/-- The calls that have begun are among these. -/
def Within (m : Machine) (sources calls : Finset Nat) : Prop :=
  ∀ frame, m.call frame ≠ .idle → frame.source ∈ sources ∧ frame.call ∈ calls

/-- The work left to these calls. -/
def Machine.effort (m : Machine) (sources calls : Finset Nat) : Nat :=
  ∑ k ∈ sources, (∑ i ∈ calls, ((m.sources k).calls i).work + 5 * (m.sources k).source.listed)

theorem Within.insert (within : Within m sources calls)
    (others : ∀ other, other ≠ frame → next.call other = m.call other) :
    Within next (insert frame.source sources) (insert frame.call calls) := by
  intro other busy
  by_cases same : other = frame
  · rw [same]
    exact ⟨Finset.mem_insert_self _ _, Finset.mem_insert_self _ _⟩
  · rw [others other same] at busy
    have known := within other busy
    exact ⟨Finset.mem_insert_of_mem known.1, Finset.mem_insert_of_mem known.2⟩

/-- There are finitely many at every moment. -/
theorem exists_within {Condition : Machine → Event → Prop}
    (reachable : (system.restrict Condition).Reachable m) :
    ∃ sources calls, Within m sources calls := by
  induction reachable with
  | init initial =>
      obtain rfl := initial
      exact ⟨∅, ∅, fun _ busy => absurd rfl busy⟩
  | step _ step inductionHypothesis =>
      obtain ⟨sources, calls, within⟩ := inductionHypothesis
      cases step.2 with
      | begin t frame => exact ⟨_, _, within.insert fun other apart => call_other apart⟩
      | move => exact ⟨_, _, within.insert fun other apart => call_other apart⟩
      | leave => exact ⟨sources, calls, within⟩

theorem effort_advance (source : frame.source ∈ sources) (number : frame.call ∈ calls)
    (less : StopSource.effort after call <
      StopSource.effort (m.sources frame.source).source (m.call frame)) :
    (m.advance frame after call).effort sources calls < m.effort sources calls := by
  have here : ∑ i ∈ calls, (((m.advance frame after call).sources frame.source).calls i).work +
        5 * ((m.advance frame after call).sources frame.source).source.listed <
      ∑ i ∈ calls, ((m.sources frame.source).calls i).work +
        5 * (m.sources frame.source).source.listed := by
    rw [advance_self, ← Finset.add_sum_erase calls _ number,
      ← Finset.add_sum_erase calls (fun i => ((m.sources frame.source).calls i).work) number]
    have others : ∑ i ∈ calls.erase frame.call,
          (Function.update (m.sources frame.source).calls frame.call call i).work =
        ∑ i ∈ calls.erase frame.call, ((m.sources frame.source).calls i).work := by
      apply Finset.sum_congr rfl
      intro i member
      rw [Function.update_of_ne (Finset.ne_of_mem_erase member)]
    unfold StopSource.effort Machine.call at less
    simp only [Function.update_self, others]
    omega
  apply Finset.sum_lt_sum
  · intro k _
    by_cases same : k = frame.source
    · rw [same]
      exact here.le
    · rw [advance_other same]
  · exact ⟨frame.source, source, here⟩

theorem Machine.Proceeds.move (stack : m.stack t = frame :: rest)
    (move : Move (m.sources frame.source).source frame.call (m.call frame) after call) :
    m.Proceeds (m.advance frame after call) :=
  .single ⟨.move t, rfl, .move t stack move⟩

theorem proceeds_of_goes (stack : m.stack t = frame :: rest) {finish : Source Nat × Call}
    (run : Relation.TransGen (Goes frame.call)
      ((m.sources frame.source).source, m.call frame) finish) :
    m.Proceeds (m.advance frame finish.1 finish.2) := by
  induction run with
  | single move => exact .move stack move
  | @tail middle last _ move inductionHypothesis =>
      have known : (m.advance frame middle.1 middle.2).stack t = frame :: rest := stack
      have step : (m.advance frame middle.1 middle.2).Proceeds
          ((m.advance frame middle.1 middle.2).advance frame last.1 last.2) := by
        apply Machine.Proceeds.move known
        rw [advance_self, call_advance]
        exact move
      rw [advance_advance] at step
      exact inductionHypothesis.trans step

theorem Machine.Proceeds.invariant {Holds : Machine → Prop} (run : m.Proceeds later)
    (holds : Holds m) (atStep : ∀ {m event next}, Holds m → event.begins = false →
      Step m event next → Holds next) : Holds later := by
  induction run with
  | refl => exact holds
  | tail _ last inductionHypothesis =>
      obtain ⟨event, own, step⟩ := last
      exact atStep inductionHypothesis own step

theorem Inv.own (inv : Inv m) {event : Event} (own : event.begins = false)
    (step : Step m event next) : Inv next := by
  have spares : SparesItself m event := by
    cases event with
    | begin => exact absurd own nofun
    | move | leave => trivial
  exact inv.step spares step

/-- No call ceases to have begun, and none begins. -/
theorem Inv.idle_iff (inv : Inv m) {event : Event} (own : event.begins = false)
    (step : Step m event next) (frame : Frame) :
    next.call frame = .idle ↔ m.call frame = .idle := by
  cases step with
  | begin => exact absurd own nofun
  | @move t top rest after call stack move =>
      by_cases same : frame = top
      · subst same
        rw [call_advance]
        have begun := inv.stacked.begun t frame (stack ▸ List.mem_cons_self)
        exact iff_of_false (Move.ne_idle move) begun
      · rw [call_other same]
  | leave => exact Iff.rfl

theorem Inv.works_top (inv : Inv m) (within : Within m sources calls)
    (stack : m.stack t = top :: rest) (inside : (m.call top).isReturned = false)
    (free : (m.call top).spins = true → (m.sources top.source).source.holder = none)
    (completed : ∀ cb, m.call top = .remove cb .wait →
      (m.sources top.source).source.completed cb = true) :
    ∃ next, m.Proceeds next ∧ next.effort sources calls < m.effort sources calls := by
  have begun := inv.stacked.begun t top (stack ▸ List.mem_cons_self)
  obtain ⟨after, call, run, less⟩ :=
    (inv_of_reachable (inv.stacked.sources top.source)).works begun inside free completed
  have known := within top begun
  exact ⟨_, proceeds_of_goes stack run, effort_advance known.1 known.2 less⟩

/-- A thread leaves a call, and ends the callback that the one below executes. -/
theorem Inv.works_below (inv : Inv m) (within : Within m sources calls)
    (stack : m.stack t = top :: other :: rest) (returned : (m.call top).isReturned = true) :
    ∃ next, m.Proceeds next ∧ next.effort sources calls < m.effort sources calls := by
  have step := Step.leave t stack returned
  obtain ⟨cb, executes⟩ := inv.stacked.below t top _ stack other List.mem_cons_self
  have body := Call.inside_of_executes executes
  obtain ⟨next, run, less⟩ := (inv.own rfl step).works_top within
    (Function.update_self t (other :: rest) m.stack) body.1
    (fun spins => absurd (body.2.1.symm.trans spins) nofun)
    (fun cb waits => absurd waits (body.2.2 cb))
  exact ⟨next, .head ⟨_, rfl, step⟩ run, less⟩

/-- While a thread is in a call that has not returned, somebody gets on: the thread itself,
whoever holds the lock that it waits for, or a thread at the end of its chain of waits. -/
theorem Inv.somebody_works (inv : Inv m) (within : Within m sources calls) (t : Thread) :
    ∀ frame ∈ m.stack t, (m.call frame).isReturned = false →
      ∃ next, m.Proceeds next ∧ next.effort sources calls < m.effort sources calls := by
  induction t using inv.waits.induction with
  | next t inductionHypothesis =>
      intro frame member inside
      obtain ⟨top, rest, stack⟩ := List.exists_cons_of_ne_nil (List.ne_nil_of_mem member)
      by_cases returned : (m.call top).isReturned = true
      · rw [stack] at member
        have apart : frame ≠ top := by
          rintro rfl
          exact absurd (inside.symm.trans returned) nofun
        obtain ⟨below, deeper, rfl⟩ := List.exists_cons_of_ne_nil
          (List.ne_nil_of_mem ((List.mem_cons.mp member).resolve_left apart))
        exact inv.works_below within stack returned
      · have running : (m.call top).isReturned = false := by simpa using returned
        by_cases completed : ∀ cb, m.call top = .remove cb .wait →
            (m.sources top.source).source.completed cb = true
        · cases holder : (m.sources top.source).source.holder with
          | none => exact inv.works_top within stack running (fun _ => holder) completed
          | some i =>
              obtain ⟨u, above, held⟩ := inv.stacked.top_of_holder holder
              have source := inv_of_reachable (inv.stacked.sources top.source)
              have holding := Call.inside_of_holds ((source.holder i).mpr holder)
              exact inv.works_top within held holding.1
                (fun spins => absurd (holding.2.1.symm.trans spins) nofun)
                (fun cb waits => absurd waits (holding.2.2 cb))
        · push Not at completed
          obtain ⟨cb, waits, incomplete⟩ := completed
          obtain ⟨u, awaits, _, i, inHand, subject⟩ :=
            inv.waits_for_other stack waits incomplete
          exact inductionHypothesis u awaits _ inHand (Call.inside_of_subject subject)

/-- A call that has begun stays so, with what is known of the machine. -/
structure Underway (sources calls : Finset Nat) (frame : Frame) (m : Machine) : Prop where
  inv : Inv m
  within : Within m sources calls
  begun : m.call frame ≠ .idle

theorem Underway.step (underway : Underway sources calls frame m) {event : Event}
    (own : event.begins = false) (step : Step m event next) :
    Underway sources calls frame next where
  inv := underway.inv.own own step
  within other busy :=
    underway.within other fun idle => busy ((underway.inv.idle_iff own step other).mpr idle)
  begun idle := underway.begun ((underway.inv.idle_iff own step frame).mp idle)

/-- Every call gets to its return. -/
theorem Inv.ends (inv : Inv m) (within : Within m sources calls) (begun : m.call frame ≠ .idle) :
    ∃ later, m.Proceeds later ∧ (later.call frame).isReturned = true := by
  have atStep : ∀ m, Underway sources calls frame m → ¬(m.call frame).isReturned = true →
      ∃ next, m.Proceeds next ∧ Underway sources calls frame next ∧
        next.effort sources calls < m.effort sources calls := by
    intro m underway unfinished
    have inside : (m.call frame).isReturned = false := by simpa using unfinished
    obtain ⟨t, member⟩ := underway.inv.stacked.present frame underway.begun inside
    obtain ⟨next, run, less⟩ :=
      underway.inv.somebody_works underway.within t frame member inside
    exact ⟨next, run, run.invariant underway fun holds own step => holds.step own step, less⟩
  have start : Underway sources calls frame m := ⟨inv, within, begun⟩
  obtain ⟨later, run, _, returned⟩ := System.exists_descent Nat.lt_wfRel.wf
    (fun m : Machine => m.effort sources calls) atStep start
  unfold Machine.Proceeds System.Continues at run
  rw [Relation.reflTransGen_eq_self] at run
  exact ⟨later, run, returned⟩

/-- The request that has set the stop flag of a source, and the callbacks registered then. -/
structure Stopping (frame : Frame) (atStop : List Callback) (m : Machine) : Prop where
  inv : Inv m
  call : ∃ pc, m.call frame = .requestStop pc ∧ pc.stopped = true
  atStop : (m.sources frame.source).source.atStop = atStop

theorem Stopping.step {atStop : List Callback} (stopping : Stopping frame atStop m)
    {event : Event} (own : event.begins = false) (step : Step m event next) :
    Stopping frame atStop next := by
  refine ⟨stopping.inv.own own step, ?_, ?_⟩
  · obtain ⟨pc, known, stopped⟩ := stopping.call
    cases step with
    | begin => exact absurd own nofun
    | @move t top rest after call stack move =>
        by_cases same : frame = top
        · subst same
          rw [call_advance]
          rw [known] at move
          cases move with
          | requestStop move => exact ⟨_, rfl, move.stopped stopped⟩
        · rw [call_other same]
          exact ⟨pc, known, stopped⟩
    | leave => exact ⟨pc, known, stopped⟩
  · rw [← stopping.atStop]
    obtain ⟨pc, known, stopped⟩ := stopping.call
    cases step with
    | begin => exact absurd own nofun
    | @move t top rest after call stack move =>
        by_cases same : frame.source = top.source
        · have source := inv_of_reachable (stopping.inv.stacked.sources frame.source)
          have set := source.setter_of_stopped known stopped
          rw [same, advance_self]
          rw [same] at source set
          exact source.atStop_eq (List.ne_nil_of_mem set) move
        · rw [advance_other same]
    | leave => rfl

/-- A request that has set the stop flag reaches every callback. -/
theorem Inv.reaches (inv : Inv m) (within : Within m sources calls) {pc : RequestPc}
    (known : m.call frame = .requestStop pc) (stopped : pc.stopped = true) :
    ∃ later, m.Proceeds later ∧ later.call frame = .requestStop (.returned false) ∧
      ∀ cb ∈ (m.sources frame.source).source.atStop,
        (later.sources frame.source).source.stage cb ≠ .removed →
        (cb, frame.call) ∈ (later.sources frame.source).source.executed := by
  have begun : m.call frame ≠ .idle := by
    rw [known]
    nofun
  obtain ⟨later, run, returned⟩ := inv.ends within begun
  have start : Stopping frame (m.sources frame.source).source.atStop m :=
    ⟨inv, ⟨pc, known, stopped⟩, rfl⟩
  have stopping := run.invariant start fun holds own step => holds.step own step
  obtain ⟨last, lastKnown, lastStopped⟩ := stopping.call
  have answer : later.call frame = .requestStop (.returned false) := by
    rw [lastKnown] at returned ⊢
    cases last with
    | returned result => cases result <;> first | rfl | exact absurd lastStopped nofun
    | _ => exact absurd returned nofun
  refine ⟨later, run, answer, ?_⟩
  rw [← stopping.atStop]
  exact stopping.inv.stacked.reached answer

/-- In every run in which threads spare themselves. -/
theorem mayDestroyItself_of_spares (reachable : (system.restrict SparesItself).Reachable m) :
    MayDestroyItself m := by
  have inv := inv_of_spares reachable
  obtain ⟨sources, calls, within⟩ := exists_within reachable
  constructor
  · exact fun t frame cb member waits i => inv.notForItself member waits
  · exact fun t top rest stack => inv.goesOn stack
  · intro t top rest stack frame below held
    obtain ⟨cb, executes⟩ := inv.stacked.below t top rest stack frame below
    have source := inv_of_reachable (inv.stacked.sources frame.source)
    exact absurd (((source.holder frame.call).mpr held).symm.trans executes.not_holds) nofun
  · exact fun frame begun => inv.ends within begun
  · exact fun frame pc known stopped => inv.reaches within known stopped
  · exact fun frame returned => inv.stacked.reached returned
  · intro frame cb returned
    have reached := inv.stacked.sources frame.source
    exact (passage_of_reachable reached).quiet (inv_of_reachable reached) returned

end Ends

/-- Nobody has a callback in hand that is in the list. -/
theorem spares_of_listed {m : Machine} {t : Thread} {frame : Frame} {cb : Callback} {pc : RemovePc}
    (reachable : (system.restrict SparesItself).Reachable m)
    (listed : (m.sources frame.source).source.stage cb = .listed) :
    SparesItself m (.begin t frame (.remove cb pc)) := by
  rintro u ⟨i, _, subject⟩
  have source := inv_of_reachable ((inv_of_spares reachable).stacked.sources frame.source)
  have taken := source.taken_of_subject subject
  rw [listed] at taken
  exact taken.elim

/-- A callback that removes another one, while a second thread waits for its end. -/
theorem mayDestroyItself_of_spares_during : ∃ m : Machine,
    (system.restrict SparesItself).Reachable m ∧
    m.stack 0 = [⟨0, 4⟩, ⟨0, 3⟩] ∧ m.call ⟨0, 4⟩ = .remove 7 .returned ∧
    m.call ⟨0, 3⟩ = .requestStop (.executing 8) ∧
    m.stack 1 = [⟨0, 2⟩] ∧ m.call ⟨0, 2⟩ = .remove 8 .wait ∧ MayDestroyItself m := by
  have step {m next : Machine} {event : Event}
      (reached : (system.restrict SparesItself).Reachable m) (step : Step m event next)
      (spares : SparesItself m event) : (system.restrict SparesItself).Reachable next :=
    reached.step ⟨spares, step⟩
  have go {m : Machine} (reached : (system.restrict SparesItself).Reachable m) (t : Thread)
      {call after : Call} {source : Source Nat} {frame : Frame} {rest : List Frame}
      (stack : m.stack t = frame :: rest) (here : m.call frame = call)
      (move : Move (m.sources frame.source).source frame.call call source after) :
      (system.restrict SparesItself).Reachable (m.advance frame source after) :=
    step reached (.move t stack (here ▸ move)) trivial
  have first := step (.init rfl) (.begin 0 ⟨0, 0⟩ nofun rfl (@Begins.register Nat _ 0 7 rfl))
    trivial
  have locked := go (go first 0 rfl rfl (.register .load)) 0 rfl rfl (.register (.win rfl))
  have listed := go (go locked 0 rfl rfl (.register .push)) 0 rfl rfl (.register .unlock)
  have second := step (step listed (.leave 0 rfl rfl) trivial)
    (.begin 0 ⟨0, 1⟩ nofun rfl (@Begins.register Nat _ 1 8 rfl)) trivial
  have locked := go (go second 0 rfl rfl (.register .load)) 0 rfl rfl (.register (.win rfl))
  have listed := go (go locked 0 rfl rfl (.register .push)) 0 rfl rfl (.register .unlock)
  have registered := step listed (.leave 0 rfl rfl) trivial
  -- the second thread begins to remove the callback before the request takes it
  have removal := step registered
    (.begin 1 ⟨0, 2⟩ nofun rfl (@Begins.remove Nat _ 2 8 1 rfl rfl))
    (spares_of_listed registered rfl)
  have requested := step removal (.begin 0 ⟨0, 3⟩ nofun rfl .requestStop) trivial
  have stopped := go (go requested 0 rfl rfl (.requestStop .load)) 0 rfl rfl
    (.requestStop (.win rfl))
  have taken := go (go stopped 0 rfl rfl (.requestStop .notify)) 0 rfl rfl
    (.requestStop (.take rfl))
  have executing := go (go taken 0 rfl rfl (.requestStop .release)) 0 rfl rfl
    (.requestStop .execute)
  have found := go (go executing 1 rfl rfl (.remove .load)) 1 rfl rfl (.remove (.win rfl))
  have waiting := go (go found 1 rfl rfl (.remove (.taken rfl))) 1 rfl rfl (.remove .unlock)
  have nested := step waiting (.begin 0 ⟨0, 4⟩ (fun top rest stack =>
    (List.cons.inj stack).1 ▸ ⟨8, .inr rfl⟩) rfl (@Begins.remove Nat _ 4 7 0 rfl rfl))
    (spares_of_listed waiting rfl)
  have locked := go (go nested 0 rfl rfl (.remove .load)) 0 rfl rfl (.remove (.win rfl))
  have unlinked := go (go locked 0 rfl rfl (.remove (.unlink rfl))) 0 rfl rfl (.remove .unlock)
  exact ⟨_, unlinked, rfl, rfl, rfl, rfl, rfl, mayDestroyItself_of_spares unlinked⟩

/-- A callback that destroys itself while a request executes it: its thread waits for it
in `_M_remove_callback`. -/
theorem not_mayDestroyItself_direct : ¬∀ m, system.Reachable m → MayDestroyItself m := by
  intro always
  have go {m : Machine} (reached : system.Reachable m) {call after : Call} {source : Source Nat}
      {frame : Frame} {rest : List Frame} (stack : m.stack 0 = frame :: rest)
      (here : m.call frame = call)
      (move : Move (m.sources frame.source).source frame.call call source after) :
      system.Reachable (m.advance frame source after) :=
    reached.step (.move 0 stack (here ▸ move))
  have start : system.Reachable {} := .init rfl
  have begun := start.step (.begin 0 ⟨0, 0⟩ nofun rfl
    (@Begins.register Nat _ 0 7 rfl))
  have locked := go (go begun rfl rfl (.register .load)) rfl rfl (.register (.win rfl))
  have listed := go (go locked rfl rfl (.register .push)) rfl rfl (.register .unlock)
  have registered := listed.step (.leave 0 rfl rfl)
  have requested := registered.step (.begin 0 ⟨0, 1⟩ nofun rfl .requestStop)
  have stopped := go (go requested rfl rfl (.requestStop .load)) rfl rfl
    (.requestStop (.win rfl))
  have taken := go (go stopped rfl rfl (.requestStop .notify)) rfl rfl (.requestStop (.take rfl))
  have executing := go (go taken rfl rfl (.requestStop .release)) rfl rfl
    (.requestStop .execute)
  have removal := executing.step (.begin 0 ⟨0, 2⟩ (fun top rest stack =>
    (List.cons.inj stack).1 ▸ ⟨7, .inr rfl⟩) rfl (@Begins.remove Nat _ 2 7 0 rfl rfl))
  have found := go (go removal rfl rfl (.remove .load)) rfl rfl (.remove (.win rfl))
  have waiting := go (go found rfl rfl (.remove (.taken rfl))) rfl rfl (.remove .unlock)
  exact (always _ waiting).notForItself 0 ⟨0, 2⟩ 7 List.mem_cons_self rfl 1
    (List.mem_cons_of_mem _ List.mem_cons_self) (.inr rfl)

end NgrCore.StopSource.Nesting
