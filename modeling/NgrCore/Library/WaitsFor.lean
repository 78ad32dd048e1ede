import Mathlib.Logic.Relation
import Mathlib.Order.WellFounded

/-!
Owns waits-for relations: who waits for whom, and that every chain of waits ends, so
that somebody can always go on.

A wait begins in two ways. A thread begins to wait for others: then none of them may
already wait for it, directly or by way of others. Or a thread comes to be waited for: then
it may wait for nobody.
-/

namespace NgrCore.Library

universe u

variable {Thread : Type u} {waits later : Thread → Thread → Prop} {t : Thread}

/-- Every chain of waits ends. -/
def WaitsEnd (waits : Thread → Thread → Prop) : Prop :=
  WellFounded (Function.swap waits)

namespace WaitsEnd

theorem not_self (ends : WaitsEnd waits) : ¬waits t t :=
  fun self => ends.irrefl.irrefl t self

/-- Induction along a chain of waits, from its end. -/
theorem induction (ends : WaitsEnd waits) {motive : Thread → Prop}
    (next : ∀ t, (∀ u, waits t u → motive u) → motive t) (t : Thread) : motive t :=
  WellFounded.induction ends t next

/-- Every new wait is for a thread whose own waits end. -/
theorem of_new (ends : WaitsEnd waits)
    (new : ∀ t u, later t u → waits t u ∨ Acc (Function.swap later) u) : WaitsEnd later := by
  constructor
  intro t
  induction t using ends.induction with
  | next t inductionHypothesis =>
      constructor
      intro u waiting
      rcases new t u waiting with before | ended
      · exact inductionHypothesis u before
      · exact ended

theorem mono (ends : WaitsEnd waits) (old : ∀ t u, later t u → waits t u) : WaitsEnd later :=
  ends.of_new fun t u waiting => .inl (old t u waiting)

/-- A thread comes to be waited for, and waits for nobody. -/
theorem awaited (ends : WaitsEnd waits) (free : ∀ u, ¬later t u)
    (old : ∀ x u, later x u → waits x u ∨ u = t) : WaitsEnd later := by
  apply ends.of_new
  intro x u waiting
  rcases old x u waiting with before | rfl
  · exact .inl before
  · exact .inr ⟨_, fun v next => absurd next (free v)⟩

/-- The waits of a thread that does not wait for `t` are as before. -/
theorem acc_of_apart (ends : WaitsEnd waits)
    (others : ∀ x u, x ≠ t → later x u → waits x u) (x : Thread)
    (apart : ¬Relation.ReflTransGen waits x t) : Acc (Function.swap later) x := by
  induction x using ends.induction with
  | next x inductionHypothesis =>
      constructor
      intro u waiting
      have different : x ≠ t := fun same => apart (same ▸ .refl)
      have before := others x u different waiting
      exact inductionHypothesis u before fun onward => apart (.head before onward)

/-- A thread begins to wait, for threads that do not wait for it. -/
theorem begin (ends : WaitsEnd waits) (others : ∀ x u, x ≠ t → later x u → waits x u)
    (apart : ∀ u, later t u → ¬Relation.ReflTransGen waits u t) : WaitsEnd later := by
  apply ends.of_new
  intro x u waiting
  by_cases same : x = t
  · subst same
    exact .inr (ends.acc_of_apart others u (apart u waiting))
  · exact .inl (others x u same waiting)

end WaitsEnd

end NgrCore.Library
