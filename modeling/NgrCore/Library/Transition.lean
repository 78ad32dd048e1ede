import Mathlib.Logic.Relation

/-!
Owns labelled transition systems: reachable states, continuations of a run,
inductive invariants, the system whose steps all meet a condition on the
state before the step and its label, and runs with an observer beside them.

A condition on runs is always written as a `restrict`ed system, so that a
result about "every run whose steps meet the condition" is a result about its
reachable states. What has happened in a run is written by an observer that no
step can see.
-/

namespace NgrCore.Library

universe u v

structure System (State : Type u) (Label : Type v) where
  Init : State → Prop
  Step : State → Label → State → Prop

namespace System

variable {State : Type u} {Label : Type v}

/-- Some run of the system from an initial state ends in the state. -/
inductive Reachable (system : System State Label) : State → Prop
  | init {state : State} : system.Init state → Reachable system state
  | step {state next : State} {label : Label} :
      Reachable system state → system.Step state label next → Reachable system next

/-- Some run of the system leads from the first state to the second. -/
def Continues (system : System State Label) : State → State → Prop :=
  Relation.ReflTransGen fun state next => ∃ label, system.Step state label next

/-- The runs of the system whose steps all meet `Condition`. -/
def restrict (system : System State Label) (Condition : State → Label → Prop) :
    System State Label where
  Init := system.Init
  Step state label next := Condition state label ∧ system.Step state label next

/-- The runs of the system with what an observer notes of them, beginning with `start`. -/
def watch {Note : Type*} (system : System State Label) (start : Note)
    (note : Note → State → Label → State → Note) : System (State × Note) Label where
  Init run := system.Init run.1 ∧ run.2 = start
  Step run label next := system.Step run.1 label next.1 ∧
    next.2 = note run.2 run.1 label next.1

variable {system : System State Label}

theorem Reachable.continue {state next : State} (reachable : Reachable system state)
    (run : system.Continues state next) : Reachable system next := by
  induction run with
  | refl => exact reachable
  | tail _ last inductionHypothesis =>
      obtain ⟨label, step⟩ := last
      exact inductionHypothesis.step step

/-- Induction over runs. The step case may use that the state before the step
is itself reachable, so invariants can be stacked. -/
theorem Reachable.invariant (Holds : State → Prop)
    (atInit : ∀ state, system.Init state → Holds state)
    (atStep : ∀ state label next, Reachable system state → Holds state →
      system.Step state label next → Holds next)
    {state : State} (reachable : Reachable system state) : Holds state := by
  induction reachable with
  | init initial => exact atInit _ initial
  | step earlier step inductionHypothesis =>
      exact atStep _ _ _ earlier inductionHypothesis step

/-- What every step preserves from a reachable state holds to the end of any
continuation. -/
theorem Continues.invariant (Holds : State → Prop)
    (atStep : ∀ state label next, Reachable system state → Holds state →
      system.Step state label next → Holds next)
    {state next : State} (reachable : Reachable system state) (holds : Holds state)
    (run : system.Continues state next) : Holds next := by
  induction run with
  | refl => exact holds
  | tail earlier last inductionHypothesis =>
      obtain ⟨label, step⟩ := last
      exact atStep _ label _ (reachable.continue earlier) inductionHypothesis step

theorem Reachable.of_restrict {Condition : State → Label → Prop} {state : State}
    (reachable : Reachable (system.restrict Condition) state) : Reachable system state := by
  induction reachable with
  | init initial => exact .init initial
  | step _ step inductionHypothesis => exact inductionHypothesis.step step.2

/-- A run whose steps meet a condition meets every weaker one. -/
theorem Reachable.weaken {Condition Weaker : State → Label → Prop} {state : State}
    (reachable : Reachable (system.restrict Condition) state)
    (weaker : ∀ state label, Condition state label → Weaker state label) :
    Reachable (system.restrict Weaker) state := by
  induction reachable with
  | init initial => exact .init initial
  | step _ step inductionHypothesis =>
      exact inductionHypothesis.step ⟨weaker _ _ step.1, step.2⟩

section Watch

variable {Note : Type*} {start : Note} {note : Note → State → Label → State → Note}

theorem Reachable.watched {state next : State} {label : Label} {written : Note}
    (reachable : Reachable (system.watch start note) (state, written))
    (step : system.Step state label next) :
    Reachable (system.watch start note) (next, note written state label next) := by
  have watched : (system.watch start note).Step (state, written) label
      (next, note written state label next) := ⟨step, rfl⟩
  exact reachable.step watched

theorem Reachable.of_watch {run : State × Note}
    (reachable : Reachable (system.watch start note) run) : Reachable system run.1 := by
  induction reachable with
  | init initial => exact .init initial.1
  | step _ step inductionHypothesis => exact inductionHypothesis.step step.1

/-- Every run can be watched. -/
theorem Reachable.watch {state : State} (reachable : Reachable system state)
    (start : Note) (note : Note → State → Label → State → Note) :
    ∃ written, Reachable (system.watch start note) (state, written) := by
  induction reachable with
  | init initial => exact ⟨start, .init ⟨initial, rfl⟩⟩
  | step _ step inductionHypothesis =>
      obtain ⟨written, watched⟩ := inductionHypothesis
      exact ⟨_, watched.watched step⟩

end Watch

/-- When every state short of the goal has a step down, some run gets to the goal. -/
theorem exists_descent {Rank : Type*} {lower : Rank → Rank → Prop}
    (wellFounded : WellFounded lower) (rank : State → Rank) {Own : State → State → Prop}
    {Holds Goal : State → Prop}
    (atStep : ∀ state, Holds state → ¬ Goal state →
      ∃ next, Own state next ∧ Holds next ∧ lower (rank next) (rank state))
    {state : State} (holds : Holds state) :
    ∃ next, Relation.ReflTransGen Own state next ∧ Holds next ∧ Goal next := by
  induction state using (InvImage.wf rank wellFounded).induction with
  | h state inductionHypothesis =>
      by_cases arrived : Goal state
      · exact ⟨state, .refl, holds, arrived⟩
      · obtain ⟨next, own, kept, below⟩ := atStep state holds arrived
        obtain ⟨last, run, reached⟩ := inductionHypothesis next below kept
        exact ⟨last, .head own run, reached⟩

end System

end NgrCore.Library
