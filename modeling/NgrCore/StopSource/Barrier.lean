import NgrCore.StopSource.ExactlyOnce

/-!
Owns what the end of `_M_remove_callback` guarantees: nobody executes the callback then
or later, and nobody reads or writes one of its fields any more, neither through the
list nor through `__callback_completed_`.
-/

namespace NgrCore.StopSource

open Library

section Definitions

variable {Id : Type}

/-- The positions of a registration at which it is past its callback. -/
def RegisterPc.leaves : RegisterPc → Bool
  | .unlock | .returned _ => true
  | _ => false

/-- The callbacks of which the next step of a call reads or writes a field. A step on the
list also reaches the neighbours: the old head on a push, the new head when the head is
taken, and both neighbours of a callback that is unlinked. -/
inductive Touches (source : Source Id) : Call → Callback → Prop
  | construct {cb : Callback} {pc : RegisterPc} (inside : pc.leaves = false) :
      Touches source (.register cb pc) cb
  | front {other cb : Callback} (head : source.list.head = some cb) :
      Touches source (.register other .push) cb
  | destruct {cb : Callback} {pc : RemovePc} (inside : pc ≠ .returned) :
      Touches source (.remove cb pc) cb
  | before {other cb : Callback} {prev : BitVec 8}
      (link : source.list.prev other = some (.next cb)) :
      Touches source (.remove other (.unlink prev)) cb
  | behind {other cb : Callback} {prev : BitVec 8} {slot : Slot Callback}
      (linked : source.list.prev other = some slot) (link : source.list.next other = some cb) :
      Touches source (.remove other (.unlink prev)) cb
  | take {cb : Callback} (head : source.list.head = some cb) :
      Touches source (.requestStop .test) cb
  | second {tmp cb : Callback} (head : source.list.head = some tmp)
      (link : source.list.next tmp = some cb) : Touches source (.requestStop .test) cb
  | run {cb : Callback} : Touches source (.requestStop (.execute cb)) cb
  | complete {cb : Callback} : Touches source (.requestStop (.executing cb)) cb

/-- A call that executes a callback. -/
def Call.Executes (call : Call) (cb : Callback) : Prop :=
  call = .register cb .executing ∨ call = .requestStop (.executing cb)

/-- Nobody executes the callback or is about to touch it. -/
structure Quiet (s : State Id) (cb : Callback) : Prop where
  executes : ∀ j, ¬(s.calls j).Executes cb
  touches : ∀ j, ¬Touches s.source (s.calls j) cb

/-- When a removal has returned, its callback is left alone for good. -/
def Barrier [DecidableEq Id] (s : State Id) : Prop :=
  ∀ i cb, s.calls i = .remove cb .returned →
    ∀ later, (system Id).Continues s later → Quiet later cb ∧
      (later.source.executed.filter fun e => e.1 = cb) =
        s.source.executed.filter fun e => e.1 = cb

/-- Removed, or executed by a call that requests stop: it does not come further. -/
def Stage.Settled : Stage Id → Prop
  | .removed | .ran _ => True
  | _ => False

/-- The positions of `_M_request_stop` behind the store to `__notify_`. -/
def RequestPc.notified : RequestPc → Bool
  | .load | .exchange | .notify | .returned true => false
  | _ => true

/-- What the position of a removal says about its callback. -/
def Passed (source : Source Id) (cb : Callback) : RemovePc → Prop
  | .unlock _ false => source.stage cb = .removed
  | .returned => source.stage cb = .removed ∨ source.completed cb = true
  | _ => True

/-- The invariant of the waiting in `_M_remove_callback`. -/
structure Passage (s : State Id) : Prop where
  notify : ∀ j pc, s.calls j = .requestStop pc → pc.notified = true → s.source.notify = true
  noticed : ∀ cb, (s.source.stage cb).Taken → s.source.notify = true
  completed : ∀ cb, s.source.completed cb = true →
    ∃ j, s.source.stage cb = .ran j ∧ s.calls j ≠ .requestStop (.executing cb)
  passed : ∀ j cb pc, s.calls j = .remove cb pc → Passed s.source cb pc

theorem passage_init : Passage ({} : State Id) where
  notify _ _ := nofun
  noticed _ := False.elim
  completed _ := nofun
  passed _ _ _ := nofun

end Definitions

section Steps

variable {Id : Type} [DecidableEq Id] {s next : State Id} {i : Id} {after : Source Id}
  {call : Call} {cb : Callback}

theorem Passage.update (passage : Passage s)
    (notify : s.source.notify = true → after.notify = true)
    (settled : ∀ cb, (s.source.stage cb).Settled → after.stage cb = s.source.stage cb)
    (noticed : ∀ cb, (after.stage cb).Taken →
      (s.source.stage cb).Taken ∨ after.notify = true)
    (kept : ∀ cb, s.source.completed cb = true → after.completed cb = true)
    (fresh : ∀ cb, after.completed cb = true → s.source.completed cb = true ∨
      after.stage cb = .ran i ∧ call ≠ .requestStop (.executing cb))
    (again : ∀ cb, call = .requestStop (.executing cb) → s.source.completed cb = false)
    (own : ∀ pc, call = .requestStop pc → pc.notified = true → after.notify = true)
    (passed : ∀ cb pc, call = .remove cb pc → Passed after cb pc) :
    Passage { source := after, calls := Function.update s.calls i call } := by
  constructor
  · intro j pc known notified
    change Function.update s.calls i call j = _ at known
    by_cases mine : j = i
    · rw [mine, Function.update_self] at known
      exact own pc known notified
    · rw [Function.update_of_ne mine] at known
      exact notify (passage.notify j pc known notified)
  · intro cb stage
    rcases noticed cb stage with before | now
    · exact notify (passage.noticed cb before)
    · exact now
  · intro cb completed
    change ∃ j, after.stage cb = _ ∧ Function.update s.calls i call j ≠ _
    rcases fresh cb completed with before | ⟨ran, moved⟩
    · obtain ⟨j, ran, passedOn⟩ := passage.completed cb before
      refine ⟨j, (settled cb (by rw [ran]; trivial)).trans ran, ?_⟩
      by_cases mine : j = i
      · rw [mine, Function.update_self]
        intro executing
        exact absurd (before.symm.trans (again cb executing)) nofun
      · rw [Function.update_of_ne mine]
        exact passedOn
    · refine ⟨i, ran, ?_⟩
      rw [Function.update_self]
      exact moved
  · intro j cb pc known
    change Function.update s.calls i call j = _ at known
    by_cases mine : j = i
    · rw [mine, Function.update_self] at known
      exact passed cb pc known
    · rw [Function.update_of_ne mine] at known
      have before := passage.passed j cb pc known
      have stays (removed : s.source.stage cb = .removed) : after.stage cb = .removed :=
        (settled cb (by rw [removed]; trivial)).trans removed
      cases pc with
      | unlock prev waits =>
          cases waits with
          | false => exact stays before
          | true => trivial
      | returned => exact before.imp stays (kept cb)
      | load | exchange | unlink | wait => trivial

theorem Passage.goto (passage : Passage s) (stage : after.stage = s.source.stage)
    (completed : after.completed = s.source.completed)
    (notify : after.notify = s.source.notify)
    (executing : ∀ cb, call ≠ .requestStop (.executing cb))
    (own : ∀ pc, call = .requestStop pc → pc.notified = true → s.source.notify = true)
    (passed : ∀ cb pc, call = .remove cb pc → Passed s.source cb pc) :
    Passage { source := after, calls := Function.update s.calls i call } := by
  refine passage.update (fun now => notify ▸ now) (fun cb _ => congrFun stage cb)
    (fun cb now => .inl (congrFun stage cb ▸ now)) (fun cb now => completed ▸ now)
    (fun cb now => .inl (completed ▸ now)) (fun cb now => absurd now (executing cb))
    (fun pc known now => notify ▸ own pc known now) ?_
  intro cb pc known
  have here := passed cb pc known
  unfold Passed at here ⊢
  rw [stage, completed]
  exact here

/-- A step that moves one callback on from a stage in which it is not settled. -/
theorem Passage.advance (passage : Passage s) {stage : Stage Id}
    (before : ¬(s.source.stage cb).Settled)
    (changed : after.stage = Function.update s.source.stage cb stage)
    (completed : after.completed = s.source.completed)
    (notify : after.notify = s.source.notify)
    (noticed : stage.Taken → s.source.notify = true)
    (own : ∀ pc, call = .requestStop pc → pc.notified = true → s.source.notify = true)
    (executing : ∀ other, call = .requestStop (.executing other) → other = cb)
    (passed : ∀ other pc, call = .remove other pc → Passed after other pc) :
    Passage { source := after, calls := Function.update s.calls i call } := by
  refine passage.update (fun now => notify ▸ now) ?_ ?_ (fun cb now => completed ▸ now)
    (fun cb now => .inl (completed ▸ now)) ?_ (fun pc known now => notify ▸ own pc known now)
    passed
  · intro other settled
    rw [changed]
    apply Function.update_of_ne
    rintro rfl
    exact before settled
  · intro other now
    rw [changed, Function.update_apply] at now
    split at now
    · exact .inr (notify ▸ noticed now)
    · exact .inl now
  · intro other known
    obtain rfl := executing other known
    cases done : s.source.completed other with
    | false => rfl
    | true =>
        obtain ⟨j, ran, _⟩ := passage.completed other done
        exact absurd (by rw [ran]; trivial) before

theorem RegisterMove.passage (inv : Inv s) (passage : Passage s) {pc pcNext : RegisterPc}
    (known : s.calls i = .register cb pc) (move : RegisterMove s.source i cb pc after pcNext) :
    Passage { source := after, calls := Function.update s.calls i (.register cb pcNext) } := by
  have ok : CallOk s.source i (.register cb pc) := known ▸ inv.calls i
  cases move with
  | push =>
      have stage : s.source.stage cb = .registering i := ok.1
      exact passage.advance (by rw [stage]; exact id) rfl rfl rfl False.elim nofun nofun nofun
  | execute =>
      have stage : s.source.stage cb = .registering i := ok
      exact passage.advance (by rw [stage]; exact id) rfl rfl rfl False.elim nofun nofun nofun
  | load | lose | win | unlock | finish => exact passage.goto rfl rfl rfl nofun nofun nofun

/-- A removal finds its callback off the list after a request has taken it. -/
theorem Inv.taken_of_detached {Id : Type} {s : State Id} {cb : Callback} (inv : Inv s)
    (linked : (s.source.stage cb).Linked) (kept : s.source.stage cb ≠ .removed)
    (detached : s.source.list.prev cb = none) : (s.source.stage cb).Taken := by
  obtain ⟨nodes, holds, listed⟩ := inv.list
  cases stage : s.source.stage cb with
  | taken j => trivial
  | ran j => trivial
  | removed => exact absurd stage kept
  | listed =>
      have member := (listed cb).mpr stage
      obtain ⟨front, back, rfl⟩ := List.append_of_mem member
      exact absurd (detached.symm.trans holds.drop.2.1) nofun
  | fresh | registering j | ranInside j =>
      rw [stage] at linked
      exact linked.elim

theorem RemoveMove.passage (inv : Inv s) (passage : Passage s) {pc pcNext : RemovePc}
    (known : s.calls i = .remove cb pc) (move : RemoveMove s.source i cb pc after pcNext) :
    Passage { source := after, calls := Function.update s.calls i (.remove cb pcNext) } := by
  obtain ⟨_, linked, ok⟩ : CallOk s.source i (.remove cb pc) := known ▸ inv.calls i
  have here := passage.passed i cb pc known
  have unchanged {now : RemovePc} (passed : Passed s.source cb now) (other : Callback)
      (pc : RemovePc) (same : Call.remove cb now = .remove other pc) :
      Passed s.source other pc := by
    cases same
    exact passed
  cases move with
  | load | lose =>
      refine passage.goto rfl rfl rfl nofun nofun (unchanged ?_)
      unfold lockNext
      split <;> trivial
  | win same => exact passage.goto rfl rfl rfl nofun nofun (unchanged trivial)
  | @unlink prev slot attached =>
      have listed := inv.listed_of_prev linked ok.1 attached
      refine passage.advance (by rw [listed]; exact id) rfl rfl rfl False.elim nofun nofun ?_
      rintro _ _ same
      cases same
      exact Function.update_self _ _ _
  | taken detached =>
      refine passage.goto rfl rfl rfl nofun nofun (unchanged ?_)
      rw [passage.noticed cb (inv.taken_of_detached linked ok.1 detached)]
      trivial
  | @unlock prev waits =>
      refine passage.goto rfl rfl rfl nofun nofun (unchanged ?_)
      cases waits with
      | false => exact .inl here
      | true => trivial
  | wait completed => exact passage.goto rfl rfl rfl nofun nofun (unchanged (.inr completed))

theorem RequestMove.passage (inv : Inv s) (passage : Passage s) {pc pcNext : RequestPc}
    (known : s.calls i = .requestStop pc) (move : RequestMove s.source i pc after pcNext) :
    Passage { source := after, calls := Function.update s.calls i (.requestStop pcNext) } := by
  have ok : CallOk s.source i (.requestStop pc) := known ▸ inv.calls i
  have now := passage.notify i pc known
  have attempt : ∀ pcNext : RequestPc,
      pcNext = tryNext s.source.state (.returned true) .exchange .load →
      Passage { source := s.source, calls := Function.update s.calls i (.requestStop pcNext) } := by
    rintro pcNext same
    refine passage.goto rfl rfl rfl ?_ ?_ nofun
    · rintro cb equal
      cases equal
      unfold tryNext at same
      split_ifs at same
    · rintro pc equal notified
      cases equal
      unfold tryNext at same
      split_ifs at same <;> subst same <;> cases notified
  have attemptLock (notified : s.source.notify = true) : ∀ pcNext : RequestPc,
      pcNext = lockNext s.source.state .relockExchange .relock →
      Passage { source := s.source, calls := Function.update s.calls i (.requestStop pcNext) } := by
    rintro pcNext same
    refine passage.goto rfl rfl rfl ?_ (fun _ _ _ => notified) nofun
    rintro cb equal
    cases equal
    unfold lockNext at same
    split_ifs at same
  cases move with
  | load | lose => exact attempt _ rfl
  | win unset => exact passage.goto rfl rfl rfl nofun nofun nofun
  | notify =>
      exact passage.update (fun _ => rfl) (fun _ _ => rfl) (fun _ => .inl) (fun _ => id)
        (fun _ => .inl) nofun (fun _ _ _ => rfl) nofun
  | @take tmp head =>
      obtain ⟨nodes, holds, listed⟩ := inv.list
      have member : tmp ∈ nodes := by
        have first : s.source.list.head = nodes.head? := holds.chain.head_eq
        exact List.mem_of_head? (first.symm.trans head)
      have stage := (listed tmp).mp member
      exact passage.advance (by rw [stage]; exact id) rfl rfl rfl (fun _ => now rfl)
        (fun _ _ _ => now rfl) nofun nofun
  | release => exact passage.goto rfl rfl rfl nofun (fun _ _ _ => now rfl) nofun
  | @execute tmp =>
      have stage : s.source.stage tmp = .taken i := ok.2
      refine passage.advance (by rw [stage]; exact id) rfl rfl rfl (fun _ => now rfl)
        (fun _ _ _ => now rfl) ?_ nofun
      rintro other same
      cases same
      rfl
  | @complete tmp =>
      have stage : s.source.stage tmp = .ran i := ok.2
      refine passage.update id (fun _ _ => rfl) (fun _ => .inl) ?_ ?_ nofun
        (fun _ _ _ => now rfl) nofun
      · intro cb completed
        change Function.update s.source.completed tmp true cb = true
        rw [Function.update_apply]
        split
        · rfl
        · exact completed
      · intro cb completed
        change Function.update s.source.completed tmp true cb = true at completed
        by_cases same : cb = tmp
        · subst same
          exact .inr ⟨stage, nofun⟩
        · rw [Function.update_of_ne same] at completed
          exact .inl completed
  | relock => exact attemptLock (now rfl) _ rfl
  | loseRelock => exact attemptLock (now rfl) _ rfl
  | winRelock same => exact passage.goto rfl rfl rfl nofun (fun _ _ _ => now rfl) nofun
  | last head => exact passage.goto rfl rfl rfl nofun (fun _ _ _ => now rfl) nofun
  | finish => exact passage.goto rfl rfl rfl nofun (fun _ _ _ => now rfl) nofun

theorem Passage.step (inv : Inv s) (passage : Passage s) (step : Step s i next) :
    Passage next := by
  cases step with
  | begin idle begins =>
      cases begins with
      | register fresh =>
          exact passage.advance (by rw [fresh]; exact id) rfl rfl rfl False.elim nofun nofun nofun
      | remove constructed unclaimed =>
          refine passage.goto rfl rfl rfl nofun nofun ?_
          rintro _ _ same
          cases same
          trivial
      | requestStop =>
          refine passage.goto rfl rfl rfl nofun ?_ nofun
          rintro _ same notified
          cases same
          cases notified
  | move move =>
      generalize known : s.calls i = call at move
      cases move with
      | register move => exact move.passage inv passage known
      | remove move => exact move.passage inv passage known
      | requestStop move => exact move.passage inv passage known

theorem passage_of_reachable (reachable : (system Id).Reachable s) : Passage s := by
  apply reachable.invariant Passage
  · rintro _ rfl
    exact passage_init
  · intro state label next earlier passage step
    exact passage.step (inv_of_reachable earlier) step

end Steps

section Barriers

variable {Id : Type} {s : State Id} {i : Id} {cb : Callback}

/-- Where the callback of a finished removal stands. -/
theorem Passage.settled (passage : Passage s) (returned : s.calls i = .remove cb .returned) :
    (s.source.stage cb).Settled := by
  rcases passage.passed i cb .returned returned with removed | completed
  · rw [removed]
    trivial
  · obtain ⟨j, ran, _⟩ := passage.completed cb completed
    rw [ran]
    trivial

theorem Inv.head_listed (inv : Inv s) (head : s.source.list.head = some cb) :
    s.source.stage cb = .listed := by
  obtain ⟨nodes, holds, listed⟩ := inv.list
  have first : s.source.list.head = nodes.head? := holds.chain.head_eq
  exact (listed cb).mp (List.mem_of_head? (first.symm.trans head))

theorem Inv.next_listed (inv : Inv s) {other : Callback}
    (stage : s.source.stage other = .listed) (link : s.source.list.next other = some cb) :
    s.source.stage cb = .listed := by
  obtain ⟨nodes, holds, listed⟩ := inv.list
  obtain ⟨front, back, rfl⟩ := List.append_of_mem ((listed other).mpr stage)
  have behind := List.mem_of_head? (holds.next_eq.symm.trans link)
  exact (listed cb).mp (List.mem_append_right _ (List.mem_cons_of_mem _ behind))

theorem Inv.prev_listed (inv : Inv s) {other : Callback}
    (stage : s.source.stage other = .listed)
    (link : s.source.list.prev other = some (.next cb)) : s.source.stage cb = .listed := by
  obtain ⟨nodes, holds, listed⟩ := inv.list
  rcases holds.prev_cases ((listed other).mpr stage) link with head | ⟨before, member, same⟩
  · cases head
  · cases same
    exact (listed cb).mp member

/-- Once settled and past its executing call, a callback is left alone. -/
theorem Passage.quiet (inv : Inv s) (passage : Passage s)
    (returned : s.calls i = .remove cb .returned) : Quiet s cb := by
  have settled := passage.settled returned
  have notListed : s.source.stage cb ≠ .listed := fun listed => by
    rw [listed] at settled
    exact settled
  have notTaken (j : Id) : s.source.stage cb ≠ .taken j := fun taken => by
    rw [taken] at settled
    exact settled
  have notInside (j : Id) : s.source.stage cb ≠ .ranInside j := fun inside => by
    rw [inside] at settled
    exact settled
  have notOutside (j : Id) : s.source.stage cb ≠ .registering j := fun outside => by
    rw [outside] at settled
    exact settled
  have notExecuting (j : Id) : s.calls j ≠ .requestStop (.executing cb) := by
    intro executing
    have ok : CallOk s.source j (.requestStop (.executing cb)) := executing ▸ inv.calls j
    rcases passage.passed i cb .returned returned with removed | completed
    · exact absurd (ok.2.symm.trans removed) nofun
    · obtain ⟨k, ran, passedOn⟩ := passage.completed cb completed
      have same : Stage.ran j = .ran k := ok.2.symm.trans ran
      cases same
      exact passedOn executing
  constructor
  · rintro j (inside | executing)
    · have ok : CallOk s.source j (.register cb .executing) := inside ▸ inv.calls j
      exact notInside j ok
    · exact notExecuting j executing
  · intro j touches
    have ok := inv.calls j
    generalize known : s.calls j = call at touches ok
    cases touches with
    | @construct _ pc inside =>
        cases pc with
        | load | exchange | execute => exact notOutside j ok
        | push => exact notOutside j ok.1
        | executing => exact notInside j ok
        | unlock | returned pushed => cases inside
    | front head => exact notListed (inv.head_listed head)
    | destruct inside =>
        have mine : CallOk s.source i (.remove cb .returned) := returned ▸ inv.calls i
        have same : j = i := Option.some.inj (ok.1.symm.trans mine.1)
        rw [same, returned] at known
        cases known
        exact inside rfl
    | before link =>
        exact notListed (inv.prev_listed (inv.listed_of_prev ok.2.1 ok.2.2.1 link) link)
    | behind linked link =>
        exact notListed (inv.next_listed (inv.listed_of_prev ok.2.1 ok.2.2.1 linked) link)
    | take head => exact notListed (inv.head_listed head)
    | second head link => exact notListed (inv.next_listed (inv.head_listed head) link)
    | run => exact notTaken j ok.2
    | complete => exact notExecuting j known

variable [DecidableEq Id]

/-- No step moves a settled callback on. -/
theorem Inv.settled_stays (inv : Inv s) {next : State Id} {j : Id} (step : Step s j next)
    (settled : (s.source.stage cb).Settled) : next.source.stage cb = s.source.stage cb := by
  have other {moved : Callback} {stage : Stage Id} (before : ¬(s.source.stage moved).Settled) :
      Function.update s.source.stage moved stage cb = s.source.stage cb := by
    apply Function.update_of_ne
    rintro rfl
    exact before settled
  cases step with
  | begin idle begins =>
      cases begins with
      | register fresh => exact other (by rw [fresh]; exact id)
      | remove | requestStop => rfl
  | move move =>
      have ok := inv.calls j
      generalize s.calls j = call at move ok
      cases move with
      | register move =>
          cases move with
          | push =>
              have stage : s.source.stage _ = .registering j := ok.1
              exact other (by rw [stage]; exact id)
          | execute =>
              have stage : s.source.stage _ = .registering j := ok
              exact other (by rw [stage]; exact id)
          | load | lose | win | unlock | finish => rfl
      | remove move =>
          cases move with
          | unlink attached =>
              have listed := inv.listed_of_prev ok.2.1 ok.2.2.1 attached
              exact other (by rw [listed]; exact id)
          | load | lose | win | taken | unlock | wait => rfl
      | requestStop move =>
          cases move with
          | take head => exact other (by rw [inv.head_listed head]; exact id)
          | execute => exact other (by rw [ok.2]; exact id)
          | load | lose | win | notify | release | complete | relock | loseRelock | winRelock
          | last | finish => rfl

theorem Step.returned {next : State Id} {j : Id} (step : Step s j next)
    (returned : s.calls i = .remove cb .returned) : next.calls i = .remove cb .returned := by
  have other (apart : i ≠ j) {call : Call} :
      Function.update s.calls j call i = .remove cb .returned := by
    rw [Function.update_of_ne apart, returned]
  cases step with
  | begin idle begins =>
      refine other ?_
      rintro rfl
      exact absurd (idle.symm.trans returned) nofun
  | move move =>
      refine other ?_
      rintro rfl
      rw [returned] at move
      cases move with
      | remove move => cases move

/-- In every run. -/
theorem removal_barrier (reachable : (system Id).Reachable s) : Barrier s := by
  intro i cb returned later run
  have persists : later.calls i = .remove cb .returned ∧
      later.source.stage cb = s.source.stage cb := by
    apply System.Continues.invariant (fun state =>
      state.calls i = .remove cb .returned ∧ state.source.stage cb = s.source.stage cb)
      ?_ reachable ⟨returned, rfl⟩ run
    rintro state j next before ⟨here, stage⟩ step
    refine ⟨Step.returned step here, ?_⟩
    have settled := (passage_of_reachable before).settled here
    exact ((inv_of_reachable before).settled_stays step settled).trans stage
  have inv := inv_of_reachable (reachable.continue run)
  have passage := passage_of_reachable (reachable.continue run)
  refine ⟨passage.quiet inv persists.1, ?_⟩
  rw [inv.executed cb, (inv_of_reachable reachable).executed cb, persists.2]

end Barriers

/-- A callback is removed while the call that requests stop executes it, and the removal
waits for its end. -/
theorem removal_barrier_waits : ∃ s : State Nat,
    s.calls 2 = .remove 7 .returned ∧ s.source.executed = [(7, 1)] ∧ Barrier s := by
  have start : (system Nat).Reachable {} := .init rfl
  have begun := start.step (.begin (i := 0) rfl (@Begins.register Nat _ 0 7 rfl))
  have locked := (begun.step (.move (i := 0) (.register .load))).step
    (.move (i := 0) (.register (.win rfl)))
  have listed := (locked.step (.move (i := 0) (.register .push))).step
    (.move (i := 0) (.register .unlock))
  have requested := (listed.step (.begin (i := 1) rfl .requestStop)).step
    (.move (i := 1) (.requestStop .load))
  have stopped := (requested.step (.move (i := 1) (.requestStop (.win rfl)))).step
    (.move (i := 1) (.requestStop .notify))
  have taken := (stopped.step (.move (i := 1) (.requestStop (.take rfl)))).step
    (.move (i := 1) (.requestStop .release))
  have executing := taken.step (.move (i := 1) (.requestStop .execute))
  have removal := (executing.step (.begin (i := 2) rfl (@Begins.remove Nat _ 2 7 0 rfl rfl))).step
    (.move (i := 2) (.remove .load))
  have found := (removal.step (.move (i := 2) (.remove (.win rfl)))).step
    (.move (i := 2) (.remove (.taken rfl)))
  have waiting := found.step (.move (i := 2) (.remove .unlock))
  have completed := waiting.step (.move (i := 1) (.requestStop .complete))
  have returned := completed.step (.move (i := 2) (.remove (.wait rfl)))
  exact ⟨_, rfl, rfl, removal_barrier returned⟩

end NgrCore.StopSource
