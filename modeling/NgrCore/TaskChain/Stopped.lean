import Mathlib.Data.List.Induction
import NgrCore.TaskChain.Propagation

/-!
Owns what a call of `_M_request_stop` on a task of a chain comes to: every task below it has
the flag once no other call is under way there, tasks that are awaited below it later have
it when they are resumed, and the tasks above it are left alone.

A second call on a source returns at once, while the first one may still be working off the
callbacks.
-/

namespace NgrCore.TaskChain

open NgrCore.Library

section Definitions

variable {Id : Type}

/-- A call on the source of the task has returned. -/
def State.Returned (s : State Id) (t : Nat) : Prop :=
  ∃ k request result, s.calls k = some request ∧ request.target = t ∧ request.pc = .done result

/-- The sources of the task and of all tasks below it have the flag. -/
def State.StoppedFrom (s : State Id) (t : Nat) : Prop :=
  ∀ inner outer, s.chain = inner ++ t :: outer →
    ∀ j ∈ t :: inner, (s.source j).stopRequested = true

/-- No call on the sources of the task and of the tasks below it is in progress. -/
def State.Settled (s : State Id) (t : Nat) : Prop :=
  ∀ inner outer, s.chain = inner ++ t :: outer → ∀ j ∈ t :: inner, ¬s.Busy j

/-- How stop requests run down the chain. -/
structure Propagation [DecidableEq Id] (s : State Id) : Prop where
  reached : ∀ t, s.Returned t → s.Settled t → s.StoppedFrom t
  later : ∀ t ∈ s.chain, s.StoppedFrom t →
    ∀ after, (system Id).Continues s after → after.StoppedFrom t
  above : ∀ k request after, s.calls k = some request → (system Id).Step s (some k) after →
    ∀ inner outer, s.chain = inner ++ request.target :: outer →
      ∀ j ∈ outer, after.source j = s.source j

end Definitions

section Chain

variable {Id : Type} {s : State Id} {t : Nat} {inner outer : List Nat}

theorem Inv.lt_of_outer (inv : Inv s) (chain : s.chain = inner ++ t :: outer) :
    ∀ j ∈ outer, j < t := by
  have sorted := inv.sorted
  rw [chain] at sorted
  exact (List.pairwise_cons.mp (List.pairwise_append.mp sorted).2.1).1

theorem Inv.gt_of_inner (inv : Inv s) (chain : s.chain = inner ++ t :: outer) :
    ∀ j ∈ inner, t < j := by
  have sorted := inv.sorted
  rw [chain] at sorted
  exact fun j member => (List.pairwise_append.mp sorted).2.2 j member t List.mem_cons_self

/-- The part of the chain from a task on, told by the numbers. -/
theorem Inv.stoppedFrom_iff (inv : Inv s) (member : t ∈ s.chain) :
    s.StoppedFrom t ↔ ∀ j ∈ s.chain, t ≤ j → (s.source j).stopRequested = true := by
  constructor
  · intro stopped j inside above
    obtain ⟨inner, outer, chain⟩ := List.append_of_mem member
    refine stopped inner outer chain j ?_
    rw [chain] at inside
    rcases List.mem_append.mp inside with inside | inside
    · exact List.mem_cons_of_mem _ inside
    · rcases List.mem_cons.mp inside with rfl | further
      · exact List.mem_cons_self
      · exact absurd above (Nat.not_le_of_lt (inv.lt_of_outer chain j further))
  · intro stopped inner outer chain j inside
    rcases List.mem_cons.mp inside with rfl | inside
    · exact stopped j member (Nat.le_refl j)
    · refine stopped j ?_ (Nat.le_of_lt (inv.gt_of_inner chain j inside))
      rw [chain]
      exact List.mem_append_left _ inside

/-- Where no call is in progress, the flag has gone all the way down. -/
theorem Inv.stopped_inner (inv : Inv s) (chain : s.chain = inner ++ t :: outer)
    (stopped : (s.source t).stopRequested = true) (settled : ∀ j ∈ t :: inner, ¬s.Busy j) :
    ∀ j ∈ inner, (s.source j).stopRequested = true := by
  induction inner using List.reverseRecOn generalizing t outer with
  | nil => nofun
  | append_singleton inner child inductionHypothesis =>
      rw [List.append_assoc, List.singleton_append] at chain
      have follows : Follows s.chain child t := ⟨inner, outer, by rw [chain]; simp⟩
      have idle : ¬s.Busy child := settled child (by simp)
      have reached : (s.source child).stopRequested = true := by
        rcases inv.linked child t follows with listed | reached | ⟨request, has, entering⟩
        · have some : (s.source t).callbacks ≠ [] := List.ne_nil_of_mem listed
          obtain ⟨request, has, loop⟩ := inv.looping t stopped some
          exact absurd ⟨request, has, .inl loop⟩ (settled t List.mem_cons_self)
        · exact reached
        · exact absurd ⟨request, has, .inr entering⟩ idle
      intro j member
      rcases List.mem_append.mp member with further | last
      · refine inductionHypothesis chain reached (fun k inside => ?_) j further
        rcases List.mem_cons.mp inside with rfl | inside
        · exact idle
        · exact settled k (by simp [inside])
      · rw [List.mem_singleton.mp last]
        exact reached

end Chain

section Steps

variable {Id : Type} {s after : State Id} {t : Nat}

/-- Every task of the chain from this one on has the flag, if it is in the chain at all. -/
def State.Held (s : State Id) (t : Nat) : Prop :=
  t ∈ s.chain → ∀ j ∈ s.chain, t ≤ j → (s.source j).stopRequested = true

/-- Where nothing joins the chain, flags are all it takes. -/
theorem State.Held.of_subset (held : s.Held t) (chain : ∀ j ∈ after.chain, j ∈ s.chain)
    (flags : ∀ j, (s.source j).stopRequested = true → (after.source j).stopRequested = true) :
    after.Held t :=
  fun member j inside above => flags j (held (chain t member) j (chain j inside) above)

/-- Tasks that are awaited below a stopped task are resumed with the flag. -/
theorem CoroutineStep.held (inv : Inv s) (known : t < s.count) (held : s.Held t)
    (step : CoroutineStep s after) : after.Held t := by
  cases step with
  | @push p outer running chain notYet =>
      intro member j inside above
      have inChain : t ∈ s.chain :=
        (List.mem_cons.mp member).resolve_left (Nat.ne_of_lt known)
      have below : t ≤ p := by
        rcases List.mem_cons.mp (chain ▸ inChain) with rfl | further
        · exact Nat.le_refl t
        · have front : s.chain = [] ++ p :: outer := chain
          exact Nat.le_of_lt (inv.lt_of_outer front t further)
      have stopped := held inChain p (chain ▸ List.mem_cons_self) below
      cases notYet.symm.trans stopped
  | execute running chain requested => exact held
  | @request c request next mid executing step =>
      obtain ⟨chain, _⟩ := step.frame
      have progress := step.progress inv (inv.requests request (.inr ⟨c, executing⟩))
      exact held.of_subset (fun j inside => chain ▸ inside) progress.flags
  | @executed c request result executing done =>
      obtain ⟨rfl, _, front⟩ := inv.executing c request executing
      have stopped := (inv.requests request (.inr ⟨_, executing⟩)).stopped done
      intro member j inside above
      rcases List.mem_cons.mp inside with rfl | before
      · exact stopped
      · rcases List.mem_cons.mp member with rfl | inChain
        · exact absurd above (Nat.not_le_of_lt (front j before))
        · exact held inChain j before above
  | @remove c p outer running chain registered listed =>
      refine held.of_subset (fun j inside => ?_) (flags_setSource p _ id)
      rw [chain]
      exact List.mem_cons_of_mem c inside
  | wait running chain registered taken => exact held
  | @waited c outer waiting chain completed =>
      refine held.of_subset (fun j inside => ?_) fun _ => id
      rw [chain]
      exact List.mem_cons_of_mem c inside
  | @finish c p outer running chain executed =>
      refine held.of_subset (fun j inside => ?_) fun _ => id
      rw [chain]
      exact List.mem_cons_of_mem c inside

theorem CoroutineStep.count_le (step : CoroutineStep s after) : s.count ≤ after.count := by
  cases step with
  | push | execute => exact Nat.le_succ _
  | request executing step => exact Nat.le_of_eq step.frame.2.1.symm
  | executed | remove | wait | waited | finish => exact Nat.le_refl _

variable [DecidableEq Id] {label : Option Id}

theorem Step.held (inv : Inv s) (known : t < s.count) (held : s.Held t)
    (step : Step s label after) : after.Held t ∧ t < after.count := by
  cases step with
  | coroutine step => exact ⟨step.held inv known held, Nat.lt_of_lt_of_le known step.count_le⟩
  | call idle member => exact ⟨held, known⟩
  | @request k request next mid call step =>
      obtain ⟨chain, count, _⟩ := step.frame
      have progress := step.progress inv (inv.requests request (.inl ⟨k, call⟩))
      refine ⟨held.of_subset (fun j inside => chain ▸ inside) progress.flags, ?_⟩
      exact Nat.lt_of_lt_of_eq known count.symm

/-- A call changes the source it was made on and those of tasks further in only. -/
theorem Step.source_eq (inv : Inv s) {k : Id} {request : Request} (call : s.calls k = some request)
    (step : Step s (some k) after) {j : Nat} (above : j < request.target) :
    after.source j = s.source j := by
  cases step with
  | call => rfl
  | @request _ current next mid here step =>
      cases call.symm.trans here
      exact (step.progress inv (inv.requests request (.inl ⟨k, call⟩))).above j above

end Steps

section Runs

variable {Id : Type} [DecidableEq Id] {s : State Id}

/-- Stop requests run down the chain, and only down. -/
theorem propagation (reachable : (system Id).Reachable s) : Propagation s := by
  have inv := inv_of_reachable reachable
  refine ⟨?_, ?_, ?_⟩
  · rintro t ⟨k, request, result, call, rfl, done⟩ settled inner outer chain
    have stopped := (inv.requests request (.inl ⟨k, call⟩)).stopped done
    intro j member
    rcases List.mem_cons.mp member with rfl | inside
    · exact stopped
    · exact inv.stopped_inner chain stopped (settled inner outer chain) j inside
  · intro t member stopped after run
    have held : s.Held t := fun _ => (inv.stoppedFrom_iff member).mp stopped
    have kept := run.invariant (fun s => s.Held t ∧ t < s.count) (fun s label next reached holds
      step => Step.held (inv_of_reachable reached) holds.2 holds.1 step) reachable
      ⟨held, inv.known t member⟩
    have later := inv_of_reachable (reachable.continue run)
    intro inner outer chain
    have inside : t ∈ after.chain := by simp [chain]
    exact (later.stoppedFrom_iff inside).mpr (kept.1 inside) inner outer chain
  · intro k request after call step inner outer chain j further
    exact step.source_eq inv call (inv.lt_of_outer chain j further)

/-- A run that requests stop on task 0, which awaits task 1. -/
theorem propagation_reached : ∃ s : State Bool, s.chain = [1, 0] ∧ s.Returned 0 ∧ s.Settled 0 ∧
    Propagation s := by
  have start : (system Bool).Reachable {} := .init rfl
  have awaited := start.step (.coroutine (.push (p := 0) rfl rfl rfl))
  have called := awaited.step (.call (k := false) (t := 0) nofun (by decide))
  have won := called.step (.request (k := false) rfl (.win (t := 0) rfl rfl))
  have taken := won.step (.request (k := false) rfl (.take (t := 0) (c := 1) rfl rfl rfl))
  have inner := taken.step (.request (k := false) rfl (.win (t := 1) rfl rfl))
  have last := inner.step (.request (k := false) rfl (.last (t := 1) rfl rfl rfl))
  have complete := last.step (.request (k := false) rfl (.complete (c := 1) rfl))
  have returned := complete.step (.request (k := false) rfl (.last (t := 0) rfl rfl rfl))
  refine ⟨_, rfl, ⟨false, _, false, rfl, rfl, rfl⟩, ?_, propagation returned⟩
  rintro _ _ _ j _ ⟨request, ⟨k, call⟩ | ⟨c, own⟩, active⟩
  · cases k with
    | false =>
        cases call
        rcases active with inside | entering
        · cases inside
        · cases entering
    | true => cases call
  · cases own

/-- A second call returns while the first one stands before the callback of task 1. -/
theorem returned_before_callbacks : ¬ ∀ s : State Bool, (system Bool).Reachable s →
    ∀ t, s.Returned t → s.StoppedFrom t := by
  intro every
  have start : (system Bool).Reachable {} := .init rfl
  have awaited := start.step (.coroutine (.push (p := 0) rfl rfl rfl))
  have called := awaited.step (.call (k := false) (t := 0) nofun (by decide))
  have won := called.step (.request (k := false) rfl (.win (t := 0) rfl rfl))
  have again := won.step (.call (k := true) (t := 0) nofun (by decide))
  have refused := again.step (.request (k := true) rfl (.refuse (t := 0) rfl rfl))
  have stopped := every _ refused 0 ⟨true, _, true, rfl, rfl, rfl⟩ [1] [] rfl 1 (by decide)
  cases stopped

end Runs

end NgrCore.TaskChain
