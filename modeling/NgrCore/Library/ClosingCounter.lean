import Mathlib.Data.List.Basic

/-!
Owns counters of participants that can be closed for good: participants enter
by incrementing and leave by decrementing while the counter is open; a closer
replaces zero by a sentinel, after which nobody enters.
-/

namespace NgrCore.Library

variable {Participant : Type*}

/-- The value of a closed counter. -/
def closedCounter : Int := -1

/-- The counter is open and counts the participants inside, or is closed with
nobody inside. -/
def ClosingCounter (count : Int) (inside : List Participant) : Prop :=
  count = inside.length ∨ (count = closedCounter ∧ inside = [])

namespace ClosingCounter

variable {count : Int} {inside : List Participant}

theorem empty : ClosingCounter 0 ([] : List Participant) := .inl rfl

theorem nobody (counter : ClosingCounter count inside) (closed : count = closedCounter) :
    inside = [] := by
  rcases counter with counted | ⟨_, nothing⟩
  · unfold closedCounter at closed
    omega
  · exact nothing

theorem enter (counter : ClosingCounter count inside) (stillOpen : count ≠ closedCounter)
    (participant : Participant) : ClosingCounter (count + 1) (participant :: inside) := by
  rcases counter with counted | ⟨closed, _⟩
  · left
    rw [counted, List.length_cons]
    rfl
  · exact absurd closed stillOpen

theorem leave [DecidableEq Participant] {participant : Participant}
    (counter : ClosingCounter count inside) (member : participant ∈ inside) :
    ClosingCounter (count - 1) (inside.erase participant) := by
  rcases counter with counted | ⟨_, nothing⟩
  · left
    have positive := List.length_pos_of_mem member
    rw [List.length_erase_of_mem member]
    omega
  · rw [nothing] at member
    exact absurd member List.not_mem_nil

theorem close (counter : ClosingCounter count inside) (unused : count = 0) :
    ClosingCounter closedCounter inside := by
  rcases counter with counted | ⟨closed, _⟩
  · right
    refine ⟨rfl, List.eq_nil_of_length_eq_zero ?_⟩
    omega
  · unfold closedCounter at closed
    omega

end ClosingCounter

end NgrCore.Library
