import NgrCore.RemoteSource.Ring

/-!
Owns the bound on the counters of the ring. A compare-exchange of `_M_push` that
expects `__T_` takes a counter past it; while none succeeds, every counter stays
between 0 and `__T_`.
-/

namespace NgrCore.RemoteSource

open NgrCore.Library

variable {Thread : Type}

theorem room_eq {n : Nat} (bounded : n ≤ T) : room n = T - n := by
  unfold room T at *
  omega

/-- The value of the counter that a prepending call has replaced and subtracts. -/
def Call.replaced : Call → Option Nat
  | .prepend _ _ (.front _ n) => some n
  | .prepend _ _ (.link _ n _) => some n
  | .prepend _ _ (.publish _ n) => some n
  | _ => none

/-- Every counter is between 0 and `__T_`, and `__T_ - __n` does not wrap. -/
structure Bounded (s : State Thread) : Prop where
  counter : ∀ e, (s.ring.entry e).n ≤ T
  difference : ∀ t n, (s.call t).replaced = some n → n ≤ T ∧ room n = T - n

/-- No compare-exchange of `_M_push` succeeds with the expected value `__T_`. -/
def StopsAtLimit (s : State Thread) (label : Thread × Action) : Prop :=
  label.2 = .reserve → ∀ blk e n, s.call label.1 = .push blk (.reserve e n) → n ≠ T

theorem stopsAtLimit_other {s : State Thread} {t : Thread} : StopsAtLimit s (t, .other) :=
  fun reserves => by cases reserves

section Steps

variable {ring next : Ring} {action : Action} {call : Call}

theorem setN_n (ring : Ring) (e n other : Nat) :
    ((ring.setN e n).entry other).n = if other = e then n else (ring.entry other).n := by
  unfold Ring.setN
  simp only [Function.update_apply]
  split <;> rfl

theorem setBlocks_n (ring : Ring) (e other : Nat) (blocks : List Addr) :
    ((ring.setBlocks e blocks).entry other).n = (ring.entry other).n := by
  unfold Ring.setBlocks
  simp only [Function.update_apply]
  split
  · rename_i same
    rw [same]
  · rfl

theorem setN_le {e n : Nat} (bounded : ∀ other, (ring.entry other).n ≤ T) (small : n ≤ T) :
    ∀ other, ((ring.setN e n).entry other).n ≤ T := by
  intro other
  rw [setN_n]
  split
  · exact small
  · exact bounded other

theorem PushMove.bounded {blk : Addr} {pc : PushPc} (move : PushMove ring blk pc action next call)
    (bounded : ∀ e, (ring.entry e).n ≤ T)
    (stops : action = .reserve → ∀ e n, pc = .reserve e n → n ≠ T) :
    (∀ e, (next.entry e).n ≤ T) ∧ call.replaced = none := by
  cases move with
  | @reserve e n expected =>
      have below := stops rfl e n rfl
      have limit := bounded e
      have short : (n + 1) % 2 ^ 64 ≤ T := by
        rw [Nat.mod_eq_of_lt (by unfold T at *; omega)]
        omega
      exact ⟨setN_le bounded short, rfl⟩
  | link expected =>
      refine ⟨fun e => ?_, by split <;> rfl⟩
      rw [setBlocks_n]
      exact bounded e
  | _ => exact ⟨bounded, rfl⟩

theorem PrependMove.bounded {ptr : List Addr} {k : Nat} {pc : PrependPc}
    (move : PrependMove ring ptr k pc action next call) (bounded : ∀ e, (ring.entry e).n ≤ T)
    (earlier : ∀ n, (Call.prepend ptr k pc).replaced = some n → n ≤ T) :
    (∀ e, (next.entry e).n ≤ T) ∧ ∀ n, call.replaced = some n → n ≤ T := by
  cases move with
  | @reserve e n expected =>
      refine ⟨setN_le bounded (Nat.le_refl _), ?_⟩
      have limit := bounded e
      intro m replaced
      split at replaced
      · cases replaced
      · split at replaced
        · cases replaced
          omega
        · split at replaced <;> cases replaced
  | @retry e n =>
      refine ⟨bounded, ?_⟩
      intro m replaced
      split at replaced <;> cases replaced
  | link expected =>
      refine ⟨fun e => ?_, earlier⟩
      rw [setBlocks_n]
      exact bounded e
  | publish =>
      refine ⟨bounded, ?_⟩
      intro m replaced
      unfold Call.prependFrom at replaced
      split at replaced <;> cases replaced
  | front => exact ⟨bounded, earlier⟩
  | relink => exact ⟨bounded, earlier⟩
  | _ => exact ⟨bounded, nofun⟩

theorem PopMove.bounded {pc : PopPc} (move : PopMove ring pc action next call)
    (bounded : ∀ e, (ring.entry e).n ≤ T) :
    (∀ e, (next.entry e).n ≤ T) ∧ call.replaced = none := by
  cases move with
  | reset => exact ⟨setN_le bounded (Nat.zero_le _), rfl⟩
  | detach expected =>
      refine ⟨fun e => ?_, rfl⟩
      rw [setBlocks_n]
      exact bounded e
  | _ => exact ⟨bounded, rfl⟩

end Steps

variable [DecidableEq Thread]

theorem Bounded.step {s next : State Thread} {label : Thread × Action} (bounded : Bounded s)
    (stops : StopsAtLimit s label) (step : Step s label next) : Bounded next := by
  rcases bounded with ⟨counter, difference⟩
  have other : ∀ {t u : Thread} {call : Call} {n : Nat}, (∀ m, call.replaced = some m → m ≤ T) →
      (Function.update s.call t call u).replaced = some n → n ≤ T ∧ room n = T - n := by
    intro t u call n small replaced
    rw [Function.update_apply] at replaced
    split at replaced
    · exact ⟨small n replaced, room_eq (small n replaced)⟩
    · exact difference u n replaced
  cases step with
  | begin idle begins =>
      refine ⟨counter, fun u n => other ?_⟩
      cases begins <;> nofun
  | @move t action ring call move =>
      cases known : s.call t with
      | push blk pc =>
          rw [known] at move
          cases move with
          | push move =>
              rcases move.bounded counter fun reserve e n here =>
                stops reserve blk e n (here ▸ known) with ⟨next, none⟩
              exact ⟨next, fun u n => other (by rw [none]; nofun)⟩
      | prepend ptr k pc =>
          rw [known] at move
          cases move with
          | prepend move =>
              rcases move.bounded counter fun n replaced =>
                (difference t n (known ▸ replaced)).1 with ⟨next, small⟩
              exact ⟨next, fun u n => other small⟩
      | tryPop pc =>
          rw [known] at move
          cases move with
          | tryPop move =>
              rcases move.bounded counter with ⟨next, none⟩
              exact ⟨next, fun u n => other (by rw [none]; nofun)⟩
      | returned batch =>
          rw [known] at move
          cases move

theorem bounded_of_stops {s : State Thread}
    (reachable : ((system Thread).restrict StopsAtLimit).Reachable s) : Bounded s := by
  apply reachable.invariant Bounded
  · rintro _ rfl
    exact ⟨fun _ => Nat.zero_le _, nofun⟩
  · intro state label next _ bounded step
    exact bounded.step step.1 step.2

/-- A pusher that has read 0 finds the counter at `__T_`, because a prepending call took
the rest of the entry; it retries with `__T_` as the expected value and succeeds. -/
theorem push_passes_limit : ¬ ∀ s, (system Bool).Reachable s → Bounded s := by
  intro every
  have start : (system Bool).Reachable {} := .init rfl
  have begun := start.step (.begin (t := true) rfl
    (.push (show State.Free _ 100 from ⟨fun _ => nofun, fun _ => nofun⟩)))
  have loaded := begun.step (.move (t := true) (.push .load))
  have seen := loaded.step (.move (t := true) (.push (.read (by decide))))
  have mapped := seen.step (.begin (t := false) rfl
    (.prepend (show (List.range 64).length = M from rfl) List.nodup_range (by
      intro blk member
      refine ⟨fun _ => nofun, ?_⟩
      have small := List.mem_range.mp member
      rintro (_ | _)
      · exact nofun
      · intro here
        have same : blk = 100 := List.mem_singleton.mp here
        exact absurd (same ▸ small) (by decide))))
  have prepending := mapped.step (.move (t := false) (.prepend .load))
  have read := prepending.step (.move (t := false) (.prepend (.read (by decide))))
  have taken := read.step (.move (t := false) (.prepend (.reserve rfl)))
  have retried := taken.step (.move (t := true) (.push .retry))
  have passed := retried.step (.move (t := true) (.push (.reserve rfl)))
  have limit := (every _ passed).counter 0
  revert limit
  decide

/-- Two pushes into one entry: each finds its compare-exchange lost to the other once. -/
theorem bounded_push : ∃ s : State Bool, ((system Bool).restrict StopsAtLimit).Reachable s ∧
    (s.ring.entry 0).n = 2 ∧ (s.ring.entry 0).blocks = [100, 200] ∧ Bounded s := by
  have start : ((system Bool).restrict StopsAtLimit).Reachable {} := .init rfl
  have first := start.step ⟨stopsAtLimit_other, .begin (t := true) rfl
    (.push (show State.Free _ 100 from ⟨fun _ => nofun, fun _ => nofun⟩))⟩
  have both := first.step ⟨stopsAtLimit_other, .begin (t := false) rfl
    (.push (show State.Free _ 200 from
      ⟨fun _ => nofun, fun t => by cases t <;> decide⟩))⟩
  have loaded := both.step ⟨stopsAtLimit_other, .move (t := true) (.push .load)⟩
  have seen := loaded.step ⟨stopsAtLimit_other, .move (t := true) (.push (.read (by decide)))⟩
  have loadedToo := seen.step ⟨stopsAtLimit_other, .move (t := false) (.push .load)⟩
  have seenToo := loadedToo.step
    ⟨stopsAtLimit_other, .move (t := false) (.push (.read (by decide)))⟩
  have reserved := seenToo.step ⟨by
    rintro - blk e n known
    cases known
    decide, .move (t := true) (.push (.reserve rfl))⟩
  have retried := reserved.step ⟨stopsAtLimit_other, .move (t := false) (.push .retry)⟩
  have reservedToo := retried.step ⟨by
    rintro - blk e n known
    cases known
    decide, .move (t := false) (.push (.reserve rfl))⟩
  have front := reservedToo.step ⟨stopsAtLimit_other, .move (t := true) (.push .front)⟩
  have frontToo := front.step ⟨stopsAtLimit_other, .move (t := false) (.push .front)⟩
  have linked := frontToo.step ⟨stopsAtLimit_other, .move (t := false) (.push (.link rfl))⟩
  have relinked := linked.step ⟨stopsAtLimit_other, .move (t := true) (.push .relink)⟩
  have last := relinked.step ⟨stopsAtLimit_other, .move (t := true) (.push (.link rfl))⟩
  exact ⟨_, last, by decide, by decide, bounded_of_stops last⟩

end NgrCore.RemoteSource
