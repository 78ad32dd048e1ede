import NgrCore.Library.Transition

/-!
Owns runs with their labels, and forward simulation: a system all of whose labelled runs
are runs of another.
-/

namespace NgrCore.Library.System

universe u v w

variable {State : Type u} {Label : Type v} {Abstract : Type w}

/-- A run from an initial state with these labels ends in the state. -/
inductive Traced (system : System State Label) : List Label → State → Prop
  | init {state : State} : system.Init state → Traced system [] state
  | step {trace : List Label} {state next : State} {label : Label} :
      Traced system trace state → system.Step state label next →
        Traced system (trace ++ [label]) next

/-- Every step is one of the other system, under the same label. -/
structure Simulation (system : System State Label) (spec : System Abstract Label)
    (Related : State → Abstract → Prop) : Prop where
  init : ∀ state, system.Init state → ∃ abstract, spec.Init abstract ∧ Related state abstract
  step : ∀ state abstract label next, Related state abstract → system.Step state label next →
    ∃ after, spec.Step abstract label after ∧ Related next after

variable {system : System State Label} {spec : System Abstract Label}
  {Related : State → Abstract → Prop}

theorem Simulation.traced (simulation : Simulation system spec Related) {trace : List Label}
    {state : State} (run : Traced system trace state) :
    ∃ abstract, Traced spec trace abstract ∧ Related state abstract := by
  induction run with
  | init initial =>
      obtain ⟨abstract, begun, related⟩ := simulation.init _ initial
      exact ⟨abstract, .init begun, related⟩
  | step earlier step inductionHypothesis =>
      obtain ⟨abstract, run, related⟩ := inductionHypothesis
      obtain ⟨after, move, related⟩ := simulation.step _ _ _ _ related step
      exact ⟨after, .step run move, related⟩

theorem Traced.invariant (Holds : State → Prop) (atInit : ∀ state, system.Init state → Holds state)
    (atStep : ∀ state label next, Holds state → system.Step state label next → Holds next)
    {trace : List Label} {state : State} (run : Traced system trace state) : Holds state := by
  induction run with
  | init initial => exact atInit _ initial
  | step _ step inductionHypothesis => exact atStep _ _ _ inductionHypothesis step

theorem Traced.reachable {trace : List Label} {state : State} (run : Traced system trace state) :
    Reachable system state := by
  induction run with
  | init initial => exact .init initial
  | step _ step inductionHypothesis => exact inductionHypothesis.step step

/-- A run of a system is one of every system that allows its steps under other labels. -/
theorem Traced.relabel {Other : Type w} {other : System State Other} (rename : Label → Other)
    (atInit : ∀ state, system.Init state → other.Init state)
    (atStep : ∀ state label next, system.Step state label next →
      other.Step state (rename label) next)
    {trace : List Label} {state : State} (run : Traced system trace state) :
    Traced other (trace.map rename) state := by
  induction run with
  | init initial => exact .init (atInit _ initial)
  | step _ step inductionHypothesis =>
      rw [List.map_append]
      exact inductionHypothesis.step (atStep _ _ _ step)

end NgrCore.Library.System
