import Mathlib.Data.List.Forall2
import Mathlib.Order.Basic

/-!
Owns stacks of extents over an ordered set of positions. Every extent begins at
or after the position that was on top when it was laid, and remembers that
position, so that taking it off puts the top back.
-/

namespace NgrCore.Library

/-- What is related to a member of the first list. -/
theorem exists_of_forall₂ {α β : Type*} {R : α → β → Prop} {l : List α} {others : List β}
    (related : List.Forall₂ R l others) {a : α} (member : a ∈ l) : ∃ b ∈ others, R a b := by
  obtain ⟨k, inside, rfl⟩ := List.mem_iff_getElem.mp member
  have within := related.length_eq ▸ inside
  exact ⟨others[k], List.getElem_mem within, related.get inside within⟩

/-- An extent `[start, stop)` and the top of the stack before it. -/
structure Extent (Position : Type*) where
  saved : Position
  start : Position
  stop : Position

variable {Position : Type*} [Preorder Position]

/-- The extents lie between `base` and `top`, most recent first. -/
def Stacked (base : Position) : Position → List (Extent Position) → Prop
  | top, [] => top = base
  | top, extent :: rest =>
      top = extent.stop ∧ extent.saved ≤ extent.start ∧ extent.start ≤ extent.stop ∧
        Stacked base extent.saved rest

namespace Stacked

variable {base top : Position} {extents : List (Extent Position)}

theorem pop {extent : Extent Position} (stacked : Stacked base top (extent :: extents)) :
    Stacked base extent.saved extents :=
  stacked.2.2.2

theorem stop_le (stacked : Stacked base top extents) {extent : Extent Position}
    (member : extent ∈ extents) : extent.stop ≤ top := by
  induction extents generalizing top with
  | nil => exact absurd member (by simp)
  | cons first rest inductionHypothesis =>
      obtain ⟨rfl, above, long, below⟩ := stacked
      rcases List.mem_cons.mp member with rfl | member
      · exact le_rfl
      · exact (inductionHypothesis below member).trans (above.trans long)

theorem pairwise (stacked : Stacked base top extents) :
    extents.Pairwise fun newer older => older.stop ≤ newer.start := by
  induction extents generalizing top with
  | nil => exact .nil
  | cons first rest inductionHypothesis =>
      obtain ⟨_, above, _, below⟩ := stacked
      exact .cons (fun older member => (below.stop_le member).trans above)
        (inductionHypothesis below)

/-- Items that lie on the extents of a stack, each related to every older one. -/
theorem pairwise_of_lies {Item : Type*} {Lies : Item → Extent Position → Prop}
    {Apart : Item → Item → Prop} {items : List Item} (stacked : Stacked base top extents)
    (lie : List.Forall₂ Lies items extents)
    (apart : ∀ newer older above below, Lies newer above → Lies older below →
      below.stop ≤ above.start → Apart newer older) : items.Pairwise Apart := by
  have order := stacked.pairwise
  clear stacked
  induction lie with
  | nil => exact .nil
  | cons first rest inductionHypothesis =>
      obtain ⟨front, back⟩ := List.pairwise_cons.mp order
      refine .cons (fun older member => ?_) (inductionHypothesis back)
      obtain ⟨below, within, lies⟩ := exists_of_forall₂ rest member
      exact apart _ _ _ _ first lies (front below within)

end Stacked

end NgrCore.Library
