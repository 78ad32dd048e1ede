import NgrCore.StopSource.Steps

/-!
Owns what every run of a `__stop_source` does with its callbacks: they are listed while
they wait, and each runs once at most, in the call that requested stop or in its own
registration.
-/

namespace NgrCore.StopSource

open Library

section Runs

variable {Id : Type}

/-- Taken off the list by a call that requests stop. -/
def Stage.Taken : Stage Id → Prop
  | .taken _ | .ran _ => True
  | _ => False

theorem Stage.listed_iff (stage : Stage Id) :
    stage = .listed ↔ stage.Linked ∧ stage ≠ .removed ∧ ¬stage.Taken := by
  cases stage <;> simp [Stage.Linked, Stage.Taken]

/-- The list at every moment at which it is not locked, and the executions. -/
structure ExactlyOnce (s : State Id) : Prop where
  list : s.source.state &&& lockedFlag = 0 → ∃ nodes, s.source.list.Holds nodes ∧
    nodes.Nodup ∧ ∀ cb, cb ∈ nodes ↔ cb ∈ s.source.registered ∧
      s.source.stage cb ≠ .removed ∧ ¬(s.source.stage cb).Taken
  once : (s.source.executed.map Prod.fst).Nodup
  answers : s.source.setters.length ≤ 1 ∧
    ∀ i result, s.calls i = .requestStop (.returned result) →
      (result = false ↔ i ∈ s.source.setters)
  drained : ∀ i, s.calls i = .requestStop (.returned false) →
    ∀ cb ∈ s.source.atStop, s.source.stage cb ≠ .removed →
      (s.source.executed.filter fun e => e.1 = cb) = [(cb, i)] ∧
        s.source.completed cb = true
  inside : ∀ i cb, s.calls i = .register cb (.returned false) →
    (s.source.executed.filter fun e => e.1 = cb) = [(cb, i)]

variable {s : State Id}

theorem Inv.once (inv : Inv s) : (s.source.executed.map Prod.fst).Nodup := by
  rw [List.nodup_iff_count_le_one]
  intro cb
  have filtered := congrArg List.length (inv.executed cb)
  have short : ((s.source.stage cb).executions cb).length ≤ 1 := by
    cases s.source.stage cb <;> simp [Stage.executions]
  rw [List.count_eq_countP, List.countP_map, List.countP_eq_length_filter]
  have same : (s.source.executed.filter ((fun other => other == cb) ∘ Prod.fst)) =
      s.source.executed.filter fun e => e.1 = cb :=
    List.filter_congr fun e _ => by simp [beq_eq_decide]
  rw [same]
  omega

/-- One call has set the stop flag at most. -/
theorem Inv.setter_unique (inv : Inv s) {i j : Id} (first : i ∈ s.source.setters)
    (second : j ∈ s.source.setters) : j = i := by
  have short := inv.setters
  cases setters : s.source.setters with
  | nil =>
      rw [setters] at first
      exact absurd first List.not_mem_nil
  | cons setter rest =>
      rw [setters] at first second short
      have none : rest = [] := List.eq_nil_of_length_eq_zero (by simpa using short)
      rw [none] at first second
      exact (List.mem_singleton.mp second).trans (List.mem_singleton.mp first).symm

theorem Inv.drained (inv : Inv s) {i : Id}
    (returned : s.calls i = .requestStop (.returned false)) {cb : Callback}
    (before : cb ∈ s.source.atStop) (kept : s.source.stage cb ≠ .removed) :
    s.source.stage cb = .ran i ∧ s.source.completed cb = true := by
  have ok : CallOk s.source i (.requestStop (.returned false)) := returned ▸ inv.calls i
  obtain ⟨setter, none⟩ := ok
  have linked := (inv.registered cb).mp (inv.atStop cb before)
  cases stage : s.source.stage cb with
  | listed => exact absurd stage (none cb)
  | removed => exact absurd stage kept
  | taken j =>
      have member : j ∈ s.source.setters := by
        have held := inv.calls j
        rcases inv.taken cb j stage with release | execute
        · rw [release] at held
          exact held.1
        · rw [execute] at held
          exact held.1
      obtain rfl := inv.setter_unique setter member
      exact absurd stage (inv.not_taken (returned ▸ rfl) cb)
  | ran j =>
      obtain ⟨member, progress⟩ := inv.ran cb j stage
      obtain rfl := inv.setter_unique setter member
      exact ⟨rfl, progress.resolve_right fun executing =>
        absurd (returned.symm.trans executing) nofun⟩
  | fresh | registering j | ranInside j =>
      rw [stage] at linked
      exact linked.elim

variable [DecidableEq Id]

/-- In every run. -/
theorem callbacks_run_once (reachable : (system Id).Reachable s) : ExactlyOnce s := by
  have inv := inv_of_reachable reachable
  exact
    { list := fun _ => by
        obtain ⟨nodes, holds, listed⟩ := inv.list
        refine ⟨nodes, holds, holds.nodup, fun cb => ?_⟩
        rw [listed, Stage.listed_iff, inv.registered]
      once := inv.once
      answers := by
        refine ⟨inv.setters, fun i result returned => ?_⟩
        have ok : CallOk s.source i (.requestStop (.returned result)) := returned ▸ inv.calls i
        cases result with
        | true => exact iff_of_false nofun ok
        | false => exact iff_of_true rfl ok.1
      drained := fun i returned cb before kept => by
        obtain ⟨ran, completed⟩ := inv.drained returned before kept
        exact ⟨(inv.executed cb).trans (ran ▸ rfl), completed⟩
      inside := fun i cb returned => by
        have ok : CallOk s.source i (.register cb (.returned false)) :=
          returned ▸ inv.calls i
        have inside : s.source.stage cb = .ranInside i := ok
        exact (inv.executed cb).trans (inside ▸ rfl) }

end Runs

/-- A callback registered before stop is requested, and one that finds it requested. -/
theorem callbacks_run_once_twice : ∃ s : State Nat,
    s.calls 1 = .requestStop (.returned false) ∧ s.calls 2 = .register 8 (.returned false) ∧
      s.source.executed = [(7, 1), (8, 2)] ∧ ExactlyOnce s := by
  have start : (system Nat).Reachable {} := .init rfl
  have begun := start.step (.begin (i := 0) rfl (@Begins.register Nat _ 0 7 rfl))
  have locked := (begun.step (.move (i := 0) (.register .load))).step
    (.move (i := 0) (.register (.win rfl)))
  have listed := (locked.step (.move (i := 0) (.register .push))).step
    (.move (i := 0) (.register .unlock))
  have requested := (listed.step (.begin (i := 1) rfl .requestStop)).step
    (.move (i := 1) (.requestStop .load))
  have stopped := (requested.step (.move (i := 1) (.requestStop (.win rfl)))).step
    (.move (i := 1) (.requestStop .notify))
  have taken := (stopped.step (.move (i := 1) (.requestStop (.take rfl)))).step
    (.move (i := 1) (.requestStop .release))
  have executed := taken.step (.move (i := 1) (.requestStop .execute))
  have late := (executed.step (.begin (i := 2) rfl (@Begins.register Nat _ 2 8 rfl))).step
    (.move (i := 2) (.register .load))
  have inside := (late.step (.move (i := 2) (.register .execute))).step
    (.move (i := 2) (.register .finish))
  have completed := (inside.step (.move (i := 1) (.requestStop .complete))).step
    (.move (i := 1) (.requestStop .relock))
  have last := (completed.step (.move (i := 1) (.requestStop (.winRelock rfl)))).step
    (.move (i := 1) (.requestStop (.last rfl)))
  have returned := last.step (.move (i := 1) (.requestStop .finish))
  exact ⟨_, rfl, rfl, rfl, callbacks_run_once returned⟩

end NgrCore.StopSource
