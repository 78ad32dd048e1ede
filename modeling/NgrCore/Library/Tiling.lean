import Mathlib.Algebra.GroupWithZero.Nat
import Mathlib.Data.List.Basic
import Mathlib.Data.List.Pairwise

/-!
Owns spans of positions and their tilings: lists of spans each of which begins where the
one before it ends.
-/

namespace NgrCore.Library

/-- The positions from `start` on, `length` of them. -/
structure Span where
  start : Nat
  length : Nat
deriving Repr, DecidableEq

namespace Span

def Contains (span : Span) (position : Nat) : Prop :=
  span.start ≤ position ∧ position < span.start + span.length

/-- No position is in both. -/
def Apart (span other : Span) : Prop :=
  ∀ position, span.Contains position → ¬ other.Contains position

/-- The spans follow one another from the first position to the last. -/
def Tiles : Nat → List Span → Nat → Prop
  | first, [], last => first = last
  | first, span :: rest, last => span.start = first ∧ Tiles (first + span.length) rest last

variable {first middle last : Nat} {spans others : List Span}

theorem Tiles.append (tiles : Tiles first spans middle) (more : Tiles middle others last) :
    Tiles first (spans ++ others) last := by
  induction spans generalizing first with
  | nil =>
      rw [show first = middle from tiles]
      exact more
  | cons span rest inductionHypothesis => exact ⟨tiles.1, inductionHypothesis tiles.2⟩

theorem Tiles.length_eq (tiles : Tiles first spans last) :
    first + (spans.map Span.length).sum = last := by
  induction spans generalizing first with
  | nil => exact tiles
  | cons span rest inductionHypothesis =>
      rw [List.map_cons, List.sum_cons, ← Nat.add_assoc]
      exact inductionHypothesis tiles.2

theorem Tiles.covers (tiles : Tiles first spans last) (position : Nat) :
    (∃ span ∈ spans, span.Contains position) ↔ first ≤ position ∧ position < last := by
  induction spans generalizing first with
  | nil =>
      have nothing : first = last := tiles
      simp
      omega
  | cons span rest inductionHypothesis =>
      have whole := tiles.2.length_eq
      rw [List.exists_mem_cons_iff, inductionHypothesis tiles.2, Contains, tiles.1]
      omega

theorem Tiles.apart (tiles : Tiles first spans last) : spans.Pairwise Apart := by
  induction spans generalizing first with
  | nil => exact List.Pairwise.nil
  | cons span rest inductionHypothesis =>
      refine List.Pairwise.cons ?_ (inductionHypothesis tiles.2)
      intro other member position inside outside
      have later := (tiles.2.covers position).mp ⟨other, member, outside⟩
      rw [Contains, tiles.1] at inside
      omega

end Span

end NgrCore.Library
