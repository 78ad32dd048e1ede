import Mathlib.Data.List.Nodup

/-!
Owns neighbours in a list: which element directly follows which, and how that changes
when the list grows at its end or loses its first element.
-/

namespace NgrCore.Library

variable {α : Type*}

def Follows (elements : List α) (first second : α) : Prop := [first, second] <:+: elements

variable {elements : List α} {first second other : α}

theorem Follows.mem_first (follows : Follows elements first second) : first ∈ elements :=
  follows.subset List.mem_cons_self

theorem Follows.mem_second (follows : Follows elements first second) : second ∈ elements :=
  follows.subset (List.mem_cons_of_mem _ List.mem_cons_self)

theorem follows_singleton : ¬ Follows [other] first second := by
  intro follows
  have length := follows.length_le
  simp at length

theorem follows_cons : Follows (other :: elements) first second ↔
    (first = other ∧ elements.head? = some second) ∨ Follows elements first second := by
  unfold Follows
  rw [List.infix_cons_iff]
  refine or_congr_left ?_
  rw [List.cons_prefix_cons]
  refine and_congr_right fun _ => ?_
  cases elements with
  | nil => simp
  | cons next rest => simp [List.cons_prefix_cons, eq_comm]

theorem follows_concat : Follows (elements ++ [other]) first second ↔
    (elements.getLast? = some first ∧ second = other) ∨ Follows elements first second := by
  induction elements with
  | nil =>
      rw [List.nil_append]
      exact iff_of_false follows_singleton (by simp [Follows])
  | cons next rest inductionHypothesis =>
      rw [List.cons_append, follows_cons, inductionHypothesis, follows_cons]
      cases rest with
      | nil =>
          have none : ¬ Follows ([] : List α) first second := by simp [Follows]
          simp [none, eq_comm]
      | cons third others =>
          rw [List.getLast?_cons_cons]
          simp only [List.cons_append, List.head?_cons]
          tauto

/-- An element of a list without repetitions has one successor at most. -/
theorem Follows.unique (nodup : elements.Nodup) (follows : Follows elements first second)
    (again : Follows elements first other) : second = other := by
  induction elements with
  | nil => simp [Follows] at follows
  | cons next rest inductionHypothesis =>
      obtain ⟨fresh, tail⟩ := List.nodup_cons.mp nodup
      rcases follows_cons.mp follows with ⟨rfl, here⟩ | behind
      · rcases follows_cons.mp again with ⟨_, there⟩ | later
        · exact Option.some.inj (here.symm.trans there)
        · exact absurd later.mem_first fresh
      · rcases follows_cons.mp again with ⟨rfl, there⟩ | later
        · exact absurd behind.mem_first fresh
        · exact inductionHypothesis tail behind later

theorem follows_reverse :
    Follows elements.reverse first second ↔ Follows elements second first := by
  unfold Follows
  rw [← List.reverse_infix, List.reverse_reverse]
  rfl

/-- An element of a list without repetitions has one predecessor at most. -/
theorem Follows.unique_first (nodup : elements.Nodup) (follows : Follows elements first second)
    (again : Follows elements other second) : first = other :=
  Follows.unique (List.nodup_reverse.mpr nodup) (follows_reverse.mpr follows)
    (follows_reverse.mpr again)

theorem Follows.ne_last (nodup : elements.Nodup) (follows : Follows elements first second) :
    elements.getLast? ≠ some first := by
  intro last
  obtain ⟨front, rfl⟩ := List.getLast?_eq_some_iff.mp last
  have apart := List.nodup_append.mp nodup
  rcases follows_concat.mp follows with ⟨inside, _⟩ | inside
  · exact apart.2.2 first (List.mem_of_getLast? inside) first List.mem_cons_self rfl
  · exact apart.2.2 first inside.mem_first first List.mem_cons_self rfl

theorem exists_follows (member : first ∈ elements) (notLast : elements.getLast? ≠ some first) :
    ∃ second, Follows elements first second := by
  induction elements with
  | nil => exact absurd member List.not_mem_nil
  | cons next rest inductionHypothesis =>
      cases rest with
      | nil =>
          rw [List.mem_singleton.mp member] at notLast
          exact absurd rfl notLast
      | cons third others =>
          rw [List.getLast?_cons_cons] at notLast
          rcases List.mem_cons.mp member with same | later
          · exact ⟨third, follows_cons.mpr (.inl ⟨same, rfl⟩)⟩
          · obtain ⟨second, follows⟩ := inductionHypothesis later notLast
            exact ⟨second, follows_cons.mpr (.inr follows)⟩

end NgrCore.Library
