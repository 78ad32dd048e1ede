import NgrCore.StopSource.Invariant

/-!
Owns what every step of a call on `__stop_source` preserves: one holder of the lock, a
well-formed list of the callbacks that are neither removed nor taken, and the record of
the executions.
-/

namespace NgrCore.StopSource

open Library

section Words

theorem word_unlocked {stopped locked : Bool} (free : word stopped locked &&& lockedFlag = 0) :
    locked = false := by
  revert stopped locked
  decide

theorem word_none {stopped locked : Bool} (none : word stopped locked = noneFlag) :
    stopped = false ∧ locked = false := by
  revert stopped locked
  decide

theorem word_lock (stopped : Bool) : word stopped false ||| lockedFlag = word stopped true := by
  revert stopped
  decide

end Words

section Invariant

variable {Id : Type}

structure Inv (s : State Id) : Prop where
  state : s.source.state = word (!s.source.setters.isEmpty) s.source.holder.isSome
  holder : ∀ j, (s.calls j).holds = true ↔ s.source.holder = some j
  setters : s.source.setters.length ≤ 1
  calls : ∀ j, CallOk s.source j (s.calls j)
  list : ∃ nodes, s.source.list.Holds nodes ∧
    ∀ cb, cb ∈ nodes ↔ s.source.stage cb = .listed
  detached : ∀ cb j, s.source.stage cb = .taken j ∨ s.source.stage cb = .ran j →
    s.source.list.prev cb = none
  registered : ∀ cb, cb ∈ s.source.registered ↔ (s.source.stage cb).Linked
  atStop : ∀ cb ∈ s.source.atStop, cb ∈ s.source.registered
  executed : ∀ cb, (s.source.executed.filter fun e => e.1 = cb) =
    (s.source.stage cb).executions cb
  removed : ∀ cb, s.source.stage cb = .removed → s.source.remover cb ≠ none
  taken : ∀ cb j, s.source.stage cb = .taken j →
    s.calls j = .requestStop (.release cb) ∨ s.calls j = .requestStop (.execute cb)
  ran : ∀ cb j, s.source.stage cb = .ran j → j ∈ s.source.setters ∧
    (s.source.completed cb = true ∨ s.calls j = .requestStop (.executing cb))

theorem inv_init : Inv ({} : State Id) where
  state := (by decide : noneFlag = word false false)
  holder j := ⟨nofun, nofun⟩
  setters := Nat.zero_le _
  calls _ := List.not_mem_nil
  list := ⟨[], SlotList.holds_empty, fun _ => ⟨nofun, nofun⟩⟩
  detached _ _ stage := stage.elim nofun nofun
  registered _ := ⟨nofun, False.elim⟩
  atStop _ member := absurd member (by simp)
  executed _ := rfl
  removed _ := nofun
  taken _ _ := nofun
  ran _ _ := nofun

variable {s : State Id} {i : Id}

/-- The callback that a call is about to execute or executes. -/
def Call.subject : Call → Option Callback
  | .requestStop (.release cb) | .requestStop (.execute cb) => some cb
  | .requestStop (.executing cb) => some cb
  | _ => none

/-- A call that has no callback in hand has completed all that it has taken. -/
theorem Inv.not_taken (inv : Inv s) (quiet : (s.calls i).subject = none) (cb : Callback) :
    s.source.stage cb ≠ .taken i := by
  intro stage
  rcases inv.taken cb i stage with release | execute
  · exact absurd (release ▸ quiet) nofun
  · exact absurd (execute ▸ quiet) nofun

theorem Inv.ran_completed (inv : Inv s) (quiet : (s.calls i).subject = none)
    {cb : Callback} (stage : s.source.stage cb = .ran i) :
    i ∈ s.source.setters ∧ s.source.completed cb = true := by
  obtain ⟨member, completed | executing⟩ := inv.ran cb i stage
  · exact ⟨member, completed⟩
  · exact absurd (executing ▸ quiet) nofun

theorem Inv.free_of_none (inv : Inv s) (unset : s.source.state = noneFlag) :
    s.source.setters = [] ∧ s.source.holder = none := by
  obtain ⟨running, free⟩ := word_none (inv.state.symm.trans unset)
  exact ⟨by simpa using running, by simpa using free⟩

theorem Inv.free_of_unlocked (inv : Inv s) (unlocked : s.source.state &&& lockedFlag = 0) :
    s.source.holder = none ∧ s.source.state = word (!s.source.setters.isEmpty) false := by
  have value := inv.state
  rw [value] at unlocked
  have free := word_unlocked unlocked
  rw [free] at value
  exact ⟨by simpa using free, value⟩

section Advancing

variable {cb : Callback} {stage : Stage Id} {after : Source Id}

theorem Guarantee.of_stage (advance : Advance s.source i cb (s.source.stage cb) stage)
    (setters : after.setters = s.source.setters) (remover : after.remover = s.source.remover)
    (changed : after.stage = Function.update s.source.stage cb stage)
    (completed : after.completed = s.source.completed) : Guarantee i s.source after where
  setters := .inl setters
  remover _ := .inl (congrFun remover _)
  stage other := by
    rw [changed]
    by_cases same : other = cb
    · rw [same, Function.update_self]
      exact .inr advance
    · exact .inl (Function.update_of_ne same _ _)
  completed other := by
    rw [completed]
    exact id

theorem Inv.list_advance (inv : Inv s) (before : s.source.stage cb ≠ .listed)
    (behind : stage ≠ .listed) : ∃ nodes, s.source.list.Holds nodes ∧
      ∀ other, other ∈ nodes ↔ Function.update s.source.stage cb stage other = .listed := by
  obtain ⟨nodes, holds, listed⟩ := inv.list
  refine ⟨nodes, holds, fun other => ?_⟩
  rw [listed]
  by_cases same : other = cb
  · rw [same, Function.update_self]
    exact iff_of_false before behind
  · rw [Function.update_of_ne same]

theorem Inv.registered_advance (inv : Inv s)
    (linked : stage.Linked ↔ (s.source.stage cb).Linked) (other : Callback) :
    other ∈ s.source.registered ↔
      (Function.update s.source.stage cb stage other).Linked := by
  rw [inv.registered]
  by_cases same : other = cb
  · rw [same, Function.update_self]
    exact linked.symm
  · rw [Function.update_of_ne same]

theorem Inv.executed_advance (inv : Inv s)
    (executions : stage.executions cb = (s.source.stage cb).executions cb) (other : Callback) :
    (s.source.executed.filter fun e => e.1 = other) =
      (Function.update s.source.stage cb stage other).executions other := by
  rw [inv.executed]
  by_cases same : other = cb
  · rw [same, Function.update_self, executions]
  · rw [Function.update_of_ne same]

theorem Inv.executed_append (inv : Inv s) (before : (s.source.stage cb).executions cb = [])
    (first : stage.executions cb = [(cb, i)]) (other : Callback) :
    ((s.source.executed ++ [(cb, i)]).filter fun e => e.1 = other) =
      (Function.update s.source.stage cb stage other).executions other := by
  rw [List.filter_append, inv.executed]
  by_cases same : other = cb
  · rw [same, Function.update_self, before, first]
    simp
  · rw [Function.update_of_ne same]
    simp [Ne.symm same]

/-- A callback that has been taken stays without a back pointer when the list changes
around the listed callbacks and one more. -/
theorem Inv.detached_advance (inv : Inv s) {list : SlotList Callback}
    (kept : ∀ other, other ≠ cb → s.source.stage other ≠ .listed →
      list.prev other = s.source.list.prev other)
    (free : ∀ j, stage = .taken j ∨ stage = .ran j → list.prev cb = none)
    (other : Callback) (j : Id)
    (away : Function.update s.source.stage cb stage other = .taken j ∨
      Function.update s.source.stage cb stage other = .ran j) : list.prev other = none := by
  by_cases same : other = cb
  · rw [same, Function.update_self] at away
    rw [same]
    exact free j away
  · rw [Function.update_of_ne same] at away
    have unlisted : s.source.stage other ≠ .listed := by
      intro still
      rw [still] at away
      exact away.elim nofun nofun
    exact (kept other same unlisted).trans (inv.detached other j away)

/-- What a call without a callback in hand has taken, after a callback has come further. -/
theorem Inv.not_taken_advance (inv : Inv s) (quiet : (s.calls i).subject = none)
    (cb : Callback) {stage : Stage Id} (free : stage ≠ .taken i) (other : Callback) :
    Function.update s.source.stage cb stage other ≠ .taken i := by
  by_cases same : other = cb
  · rw [same, Function.update_self]
    exact free
  · rw [Function.update_of_ne same]
    exact inv.not_taken quiet other

theorem Inv.ran_advance (inv : Inv s) (quiet : (s.calls i).subject = none)
    (cb : Callback) {stage : Stage Id} (free : stage ≠ .ran i) {other : Callback}
    (ran : Function.update s.source.stage cb stage other = .ran i) :
    i ∈ s.source.setters ∧ s.source.completed other = true := by
  by_cases same : other = cb
  · rw [same, Function.update_self] at ran
    exact absurd ran free
  · rw [Function.update_of_ne same] at ran
    exact inv.ran_completed quiet ran

end Advancing

/-- A callback that a removal finds linked to a slot is in the list. -/
theorem Inv.listed_of_prev (inv : Inv s) {cb : Callback} {slot : Slot Callback}
    (linked : (s.source.stage cb).Linked) (present : s.source.stage cb ≠ .removed)
    (prev : s.source.list.prev cb = some slot) : s.source.stage cb = .listed := by
  have attached := inv.detached cb
  cases stage : s.source.stage cb with
  | listed => rfl
  | removed => exact absurd stage present
  | taken j => exact absurd (prev.symm.trans (attached j (.inl stage))) nofun
  | ran j => exact absurd (prev.symm.trans (attached j (.inr stage))) nofun
  | fresh | registering j | ranInside j =>
      rw [stage] at linked
      exact linked.elim

/-- A call has one callback in hand at most. -/
theorem Inv.taken_subject (inv : Inv s) {tmp cb : Callback}
    (subject : (s.calls i).subject = some tmp) (stage : s.source.stage cb = .taken i) :
    tmp = cb := by
  rcases inv.taken cb i stage with release | execute
  · rw [release] at subject
    exact (Option.some.inj subject).symm
  · rw [execute] at subject
    exact (Option.some.inj subject).symm

variable [DecidableEq Id] {after : Source Id} {call : Call}

/-- The holder of the lock after a step that neither takes nor releases it. -/
theorem Inv.holder_same (inv : Inv s) (same : call.holds = (s.calls i).holds) (j : Id) :
    (Function.update s.calls i call j).holds = true ↔ s.source.holder = some j := by
  by_cases mine : j = i
  · rw [mine, Function.update_self, same]
    exact inv.holder i
  · rw [Function.update_of_ne mine]
    exact inv.holder j

theorem Inv.holder_lock (inv : Inv s) (free : s.source.holder = none)
    (holds : call.holds = true) (j : Id) :
    (Function.update s.calls i call j).holds = true ↔ some i = some j := by
  by_cases mine : j = i
  · rw [mine, Function.update_self, holds]
    simp
  · rw [Function.update_of_ne mine]
    have idle := inv.holder j
    rw [free] at idle
    exact ⟨fun holds => absurd (idle.mp holds) nofun,
      fun same => absurd (Option.some.inj same).symm mine⟩

theorem Inv.holder_unlock (inv : Inv s) (held : (s.calls i).holds = true)
    (released : call.holds = false) (j : Id) :
    (Function.update s.calls i call j).holds = true ↔ (none : Option Id) = some j := by
  have owner := (inv.holder i).mp held
  by_cases mine : j = i
  · rw [mine, Function.update_self, released]
    simp
  · rw [Function.update_of_ne mine]
    refine ⟨fun holds => ?_, nofun⟩
    exact absurd (Option.some.inj (((inv.holder j).mp holds).symm.trans owner)) mine

/-- A step of one call: what it does to the source, and the new position. -/
theorem Inv.update (inv : Inv s) (guarantee : Guarantee i s.source after)
    (own : CallOk after i call)
    (state : after.state = word (!after.setters.isEmpty) after.holder.isSome)
    (holder : ∀ j, (Function.update s.calls i call j).holds = true ↔ after.holder = some j)
    (list : ∃ nodes, after.list.Holds nodes ∧ ∀ cb, cb ∈ nodes ↔ after.stage cb = .listed)
    (detached : ∀ cb j, after.stage cb = .taken j ∨ after.stage cb = .ran j →
      after.list.prev cb = none)
    (registered : ∀ cb, cb ∈ after.registered ↔ (after.stage cb).Linked)
    (atStop : ∀ cb ∈ after.atStop, cb ∈ after.registered)
    (executed : ∀ cb, (after.executed.filter fun e => e.1 = cb) =
      (after.stage cb).executions cb)
    (taken : ∀ cb, after.stage cb = .taken i →
      call = .requestStop (.release cb) ∨ call = .requestStop (.execute cb))
    (ran : ∀ cb, after.stage cb = .ran i → i ∈ after.setters ∧
      (after.completed cb = true ∨ call = .requestStop (.executing cb))) :
    Inv { source := after, calls := Function.update s.calls i call } where
  state := state
  holder := holder
  setters := by
    rcases guarantee.setters with same | ⟨_, _, mine⟩
    · exact same ▸ inv.setters
    · exact mine ▸ Nat.le_refl 1
  calls j := by
    change CallOk after j (Function.update s.calls i call j)
    by_cases mine : j = i
    · rw [mine, Function.update_self]
      exact own
    · rw [Function.update_of_ne mine]
      exact guarantee.callOk mine (inv.holder j).mp (inv.calls j)
  list := list
  detached := detached
  registered := registered
  atStop := atStop
  executed := executed
  removed cb stage := by
    have remover : s.source.remover cb ≠ none := by
      rcases guarantee.stage cb with same | advance
      · exact inv.removed cb (same ▸ stage)
      · have stage : after.stage cb = .removed := stage
        rw [stage] at advance
        generalize s.source.stage cb = before at advance
        cases advance with
        | remove mine => exact mine ▸ nofun
    rcases guarantee.remover cb with same | none
    · exact same ▸ remover
    · exact absurd none remover
  taken cb j stage := by
    change Function.update s.calls i call j = _ ∨ Function.update s.calls i call j = _
    by_cases mine : j = i
    · rw [mine, Function.update_self]
      exact taken cb (mine ▸ stage)
    · rw [Function.update_of_ne mine]
      have stage : after.stage cb = .taken j := stage
      have before : after.stage cb = s.source.stage cb :=
        guarantee.stage_eq_of_after mine (stage ▸ rfl)
      exact inv.taken cb j (before ▸ stage)
  ran cb j stage := by
    change j ∈ after.setters ∧
      (after.completed cb = true ∨ Function.update s.calls i call j = _)
    by_cases mine : j = i
    · rw [mine, Function.update_self]
      exact ran cb (mine ▸ stage)
    · rw [Function.update_of_ne mine]
      have stage : after.stage cb = .ran j := stage
      have before : after.stage cb = s.source.stage cb :=
        guarantee.stage_eq_of_after mine (stage ▸ rfl)
      obtain ⟨member, progress⟩ := inv.ran cb j (before ▸ stage)
      exact ⟨(guarantee.mem_setters mine).mpr member,
        progress.imp_left (guarantee.completed cb)⟩

/-- A step that leaves the list, the callbacks and the executions alone. -/
theorem Inv.relabel (inv : Inv s) (guarantee : Guarantee i s.source after)
    (own : CallOk after i call)
    (state : after.state = word (!after.setters.isEmpty) after.holder.isSome)
    (holder : ∀ j, (Function.update s.calls i call j).holds = true ↔ after.holder = some j)
    (list : after.list = s.source.list) (stage : after.stage = s.source.stage)
    (registered : after.registered = s.source.registered)
    (atStop : ∀ cb ∈ after.atStop, cb ∈ s.source.registered)
    (executed : after.executed = s.source.executed)
    (taken : ∀ cb, s.source.stage cb = .taken i →
      call = .requestStop (.release cb) ∨ call = .requestStop (.execute cb))
    (ran : ∀ cb, s.source.stage cb = .ran i → i ∈ after.setters ∧
      (after.completed cb = true ∨ call = .requestStop (.executing cb))) :
    Inv { source := after, calls := Function.update s.calls i call } := by
  refine inv.update guarantee own state holder ?_ ?_ ?_ ?_ ?_ ?_ ?_
  · rw [list, stage]
    exact inv.list
  · rw [list, stage]
    exact inv.detached
  · rw [registered, stage]
    exact inv.registered
  · rw [registered]
    exact atStop
  · rw [executed, stage]
    exact inv.executed
  · rw [stage]
    exact taken
  · rw [stage]
    exact ran

theorem Inv.goto (inv : Inv s) (quiet : (s.calls i).subject = none)
    (own : CallOk s.source i call) (same : call.holds = (s.calls i).holds) :
    Inv { source := s.source, calls := Function.update s.calls i call } :=
  inv.relabel (.refl i s.source) own inv.state (inv.holder_same same) rfl rfl rfl inv.atStop
    rfl (fun cb stage => absurd stage (inv.not_taken quiet cb))
    fun _ stage => (inv.ran_completed quiet stage).imp_right .inl

theorem Inv.lock (inv : Inv s) (quiet : (s.calls i).subject = none) {state : BitVec 8}
    (free : s.source.holder = none) (holds : call.holds = true)
    (value : state = word (!s.source.setters.isEmpty) true)
    (own : CallOk (s.source.lock i state) i call) :
    Inv { source := s.source.lock i state, calls := Function.update s.calls i call } :=
  inv.relabel ⟨.inl rfl, fun _ => .inl rfl, fun _ => .inl rfl, fun _ => id⟩ own value
    (inv.holder_lock free holds) rfl rfl rfl inv.atStop rfl
    (fun cb stage => absurd stage (inv.not_taken quiet cb))
    fun _ stage => (inv.ran_completed quiet stage).imp_right .inl

theorem Inv.unlock (inv : Inv s) (quiet : (s.calls i).subject = none) {state : BitVec 8}
    (held : (s.calls i).holds = true) (released : call.holds = false)
    (value : state = word (!s.source.setters.isEmpty) false)
    (own : CallOk (s.source.unlock state) i call) :
    Inv { source := s.source.unlock state, calls := Function.update s.calls i call } :=
  inv.relabel ⟨.inl rfl, fun _ => .inl rfl, fun _ => .inl rfl, fun _ => id⟩ own value
    (inv.holder_unlock held released) rfl rfl rfl inv.atStop rfl
    (fun cb stage => absurd stage (inv.not_taken quiet cb))
    fun _ stage => (inv.ran_completed quiet stage).imp_right .inl

theorem RegisterMove.inv (inv : Inv s) {cb : Callback} {pc next : RegisterPc}
    (known : s.calls i = .register cb pc) (move : RegisterMove s.source i cb pc after next) :
    Inv { source := after, calls := Function.update s.calls i (.register cb next) } := by
  have quiet : (s.calls i).subject = none := known ▸ rfl
  have ok : CallOk s.source i (.register cb pc) := known ▸ inv.calls i
  cases move with
  | load | lose =>
      unfold tryNext
      split_ifs <;> exact inv.goto quiet ok (known ▸ rfl)
  | win unset =>
      obtain ⟨running, free⟩ := inv.free_of_none unset
      refine inv.lock quiet free rfl ?_ ⟨ok, running⟩
      rw [running]
      exact (by decide : lockedFlag = word false true)
  | unlock =>
      obtain ⟨linked, running⟩ : (s.source.stage cb).Linked ∧ s.source.setters = [] := ok
      refine inv.unlock quiet (known ▸ rfl) rfl ?_ linked
      rw [running]
      exact (by decide : noneFlag = word false false)
  | finish => exact inv.goto quiet ok (known ▸ rfl)
  | execute =>
      have registering : s.source.stage cb = .registering i := ok
      refine inv.update
        (.of_stage (registering ▸ .inside) rfl rfl rfl rfl) (Function.update_self _ _ _)
        inv.state (inv.holder_same (known ▸ rfl)) (inv.list_advance (registering ▸ nofun) nofun)
        (inv.detached_advance (fun _ _ _ => rfl) nofun) ?_ inv.atStop ?_ ?_ ?_
      · exact inv.registered_advance (registering ▸ Iff.rfl)
      · exact inv.executed_append (registering ▸ rfl) rfl
      · intro other taken
        have free : Stage.ranInside i ≠ .taken i := nofun
        exact absurd taken (inv.not_taken_advance quiet cb free other)
      · intro other ran
        have free : Stage.ranInside i ≠ .ran i := nofun
        exact (inv.ran_advance quiet cb free ran).imp_right .inl
  | push =>
      obtain ⟨registering, running⟩ : s.source.stage cb = .registering i ∧
        s.source.setters = [] := ok
      obtain ⟨nodes, holds, listed⟩ := inv.list
      have fresh : cb ∉ nodes := by
        rw [listed, registering]
        exact nofun
      have stage : ∀ other, Function.update s.source.stage cb .listed other =
          if other = cb then .listed else s.source.stage other :=
        fun other => Function.update_apply _ _ _ _
      refine inv.update (.of_stage (registering ▸ .push running) rfl rfl rfl rfl)
        ⟨?_, running⟩ inv.state (inv.holder_same (known ▸ rfl))
        ⟨cb :: nodes, holds.pushFront fresh, fun other => ?_⟩
        (inv.detached_advance (fun other apart unlisted =>
          holds.pushFront_prev apart ((listed other).not.mpr unlisted)) nofun)
        (fun other => ?_) (fun other member => ?_)
        (inv.executed_advance (registering ▸ rfl)) (fun other taken => ?_)
        fun other ran => ?_
      · change (Function.update s.source.stage cb .listed cb).Linked
        rw [Function.update_self]
        trivial
      · change _ ↔ Function.update s.source.stage cb .listed other = .listed
        rw [stage, List.mem_cons, listed]
        by_cases same : other = cb
        · simp [same]
        · simp [same]
      · change _ ↔ (Function.update s.source.stage cb .listed other).Linked
        rw [stage, List.mem_append, inv.registered, List.mem_singleton]
        by_cases same : other = cb
        · rw [if_pos same]
          exact iff_of_true (.inr same) trivial
        · rw [if_neg same]
          exact or_iff_left same
      · exact List.mem_append_left _ (inv.atStop other member)
      · have free : Stage.listed ≠ .taken i := nofun
        exact absurd taken (inv.not_taken_advance quiet cb free other)
      · have free : Stage.listed ≠ .ran i := nofun
        exact (inv.ran_advance quiet cb free ran).imp_right .inl

theorem RemoveMove.inv (inv : Inv s) {cb : Callback} {pc next : RemovePc}
    (known : s.calls i = .remove cb pc) (move : RemoveMove s.source i cb pc after next) :
    Inv { source := after, calls := Function.update s.calls i (.remove cb next) } := by
  have quiet : (s.calls i).subject = none := known ▸ rfl
  have whole : CallOk s.source i (.remove cb pc) := known ▸ inv.calls i
  obtain ⟨remover, linked, ok⟩ := whole
  have attempt (present : s.source.stage cb ≠ .removed)
      (free : (s.calls i).holds = false) :
      Inv (State.mk s.source (Function.update s.calls i
        (.remove cb (lockNext s.source.state .exchange .load)))) := by
    unfold lockNext
    split_ifs with unlocked
    · exact inv.goto quiet ⟨remover, linked, present⟩ free.symm
    · exact inv.goto quiet ⟨remover, linked, present, not_not.mp unlocked⟩ free.symm
  cases move with
  | load => exact attempt ok (known ▸ rfl)
  | lose => exact attempt ok.1 (known ▸ rfl)
  | @win prev same =>
      obtain ⟨present, unlocked⟩ : s.source.stage cb ≠ .removed ∧ prev &&& lockedFlag = 0 := ok
      obtain ⟨free, value⟩ := inv.free_of_unlocked (same ▸ unlocked)
      have prevIs : prev = word (!s.source.setters.isEmpty) false := same.symm.trans value
      refine inv.lock quiet free rfl ?_ ⟨remover, linked, present, prevIs⟩
      rw [prevIs, word_lock]
  | taken _ =>
      exact inv.goto quiet ⟨remover, linked, ok.2⟩ (known ▸ rfl)
  | @unlock prev waits =>
      have released : (Call.remove cb (if waits then .wait else .returned)).holds = false := by
        cases waits <;> rfl
      refine inv.unlock quiet (known ▸ rfl) released ok ⟨remover, linked, ?_⟩
      cases waits <;> trivial
  | wait => exact inv.goto quiet ⟨remover, linked, trivial⟩ (known ▸ rfl)
  | @unlink prev slot attached =>
      obtain ⟨present, value⟩ : s.source.stage cb ≠ .removed ∧
        prev = word (!s.source.setters.isEmpty) false := ok
      have isListed := inv.listed_of_prev linked present attached
      obtain ⟨nodes, holds, listed⟩ := inv.list
      obtain ⟨own, front, back, rfl, same, shorter, untouched⟩ :=
        holds.unlink ((listed cb).mpr isListed)
      obtain rfl : own = slot := Option.some.inj (same.symm.trans attached)
      have removed : ¬(cb ∈ front ∨ cb ∈ back) := by
        have unique := holds.nodup
        rw [List.nodup_append, List.nodup_cons] at unique
        exact fun member => member.elim
          (fun before => unique.2.2 cb before cb List.mem_cons_self rfl) unique.2.1.1
      have stage : ∀ other, Function.update s.source.stage cb .removed other =
          if other = cb then .removed else s.source.stage other :=
        fun other => Function.update_apply _ _ _ _
      refine inv.update (.of_stage (isListed ▸ .remove remover) rfl rfl rfl rfl)
        ⟨remover, ?_, value⟩ inv.state (inv.holder_same (known ▸ rfl))
        ⟨front ++ back, shorter, fun other => ?_⟩
        (inv.detached_advance (fun other _ unlisted =>
          untouched other ((listed other).not.mpr unlisted)) nofun)
        (inv.registered_advance (isListed ▸ Iff.rfl)) inv.atStop
        (inv.executed_advance (isListed ▸ rfl)) (fun other taken => ?_)
        fun other ran => ?_
      · change (Function.update s.source.stage cb .removed cb).Linked
        rw [Function.update_self]
        trivial
      · change _ ↔ Function.update s.source.stage cb .removed other = .listed
        rw [stage]
        have before := listed other
        rw [List.mem_append, List.mem_cons] at before
        rw [List.mem_append]
        by_cases same : other = cb
        · rw [if_pos same, same]
          exact iff_of_false removed nofun
        · rw [if_neg same, ← before]
          simp [same]
      · have free : Stage.removed ≠ .taken i := nofun
        exact absurd taken (inv.not_taken_advance quiet cb free other)
      · have free : Stage.removed ≠ .ran i := nofun
        exact (inv.ran_advance quiet cb free ran).imp_right .inl

theorem RequestMove.inv (inv : Inv s) {pc next : RequestPc}
    (known : s.calls i = .requestStop pc) (move : RequestMove s.source i pc after next) :
    Inv { source := after, calls := Function.update s.calls i (.requestStop next) } := by
  have ok : CallOk s.source i (.requestStop pc) := known ▸ inv.calls i
  have attempt (member : i ∈ s.source.setters) (free : (s.calls i).holds = false)
      (quiet : (s.calls i).subject = none) :
      Inv (State.mk s.source (Function.update s.calls i
        (.requestStop (lockNext s.source.state .relockExchange .relock)))) := by
    unfold lockNext
    split_ifs with unlocked
    · exact inv.goto quiet member free.symm
    · exact inv.goto quiet ⟨member, not_not.mp unlocked⟩ free.symm
  cases move with
  | load | lose =>
      unfold tryNext
      split_ifs <;> exact inv.goto (known ▸ rfl) ok (known ▸ rfl)
  | win unset =>
      have quiet : (s.calls i).subject = none := known ▸ rfl
      obtain ⟨running, free⟩ := inv.free_of_none unset
      have setters : s.source.setters ++ [i] = [i] := by rw [running, List.nil_append]
      refine inv.relabel
        ⟨.inr ⟨running, free, setters⟩, fun _ => .inl rfl, fun _ => .inl rfl, fun _ => id⟩
        (List.mem_append_right _ List.mem_cons_self) ?_ (inv.holder_lock free rfl) rfl rfl rfl
        (fun _ member => member) rfl (fun cb stage => absurd stage (inv.not_taken quiet cb))
        fun _ stage => ?_
      · change _ = word (!(s.source.setters ++ [i]).isEmpty) true
        rw [setters]
        exact (by decide : lockedFlag ||| stopRequestedFlag = word true true)
      · have member := (inv.ran_completed quiet stage).1
        rw [running] at member
        exact absurd member List.not_mem_nil
  | notify =>
      have quiet : (s.calls i).subject = none := known ▸ rfl
      exact inv.relabel ⟨.inl rfl, fun _ => .inl rfl, fun _ => .inl rfl, fun _ => id⟩ ok
        inv.state (inv.holder_same (known ▸ rfl)) rfl rfl rfl inv.atStop rfl
        (fun cb stage => absurd stage (inv.not_taken quiet cb))
        fun _ stage => (inv.ran_completed quiet stage).imp_right .inl
  | @take tmp head =>
      have quiet : (s.calls i).subject = none := known ▸ rfl
      obtain ⟨nodes, holds, listed⟩ := inv.list
      have first : s.source.list.head = nodes.head? := holds.chain.head_eq
      cases nodes with
      | nil => exact absurd (head.symm.trans first) nofun
      | cons node rest =>
          obtain rfl : tmp = node := Option.some.inj (head.symm.trans first)
          have isListed := (listed tmp).mp List.mem_cons_self
          have fresh := (List.nodup_cons.mp holds.nodup).1
          refine inv.update (.of_stage (isListed ▸ .take) rfl rfl rfl rfl)
            ⟨ok, Function.update_self _ _ _⟩ inv.state (inv.holder_same (known ▸ rfl))
            ⟨rest, holds.popFront, fun other => ?_⟩
            (inv.detached_advance (fun other _ unlisted =>
              holds.popFront_prev ((listed other).not.mpr unlisted))
              fun _ _ => holds.popFront_prev_self)
            (inv.registered_advance (isListed ▸ Iff.rfl)) inv.atStop
            (inv.executed_advance (isListed ▸ rfl)) (fun other taken => ?_)
            fun other ran => ?_
          · change _ ↔ Function.update s.source.stage tmp (.taken i) other = .listed
            have before := listed other
            rw [List.mem_cons] at before
            by_cases same : other = tmp
            · rw [same, Function.update_self]
              exact iff_of_false fresh nofun
            · rw [Function.update_of_ne same, ← before]
              simp [same]
          · by_cases same : other = tmp
            · exact .inl (same ▸ rfl)
            · have taken : Function.update s.source.stage tmp (.taken i) other = .taken i :=
                taken
              rw [Function.update_of_ne same] at taken
              exact absurd taken (inv.not_taken quiet other)
          · have free : Stage.taken i ≠ .ran i := nofun
            exact (inv.ran_advance quiet tmp free ran).imp_right .inl
  | @release tmp =>
      have stopped : (!s.source.setters.isEmpty) = true := by
        simpa using List.ne_nil_of_mem ok.1
      refine inv.relabel ⟨.inl rfl, fun _ => .inl rfl, fun _ => .inl rfl, fun _ => id⟩ ok ?_
        (inv.holder_unlock (known ▸ rfl) rfl) rfl rfl rfl inv.atStop rfl
        (fun cb stage => .inr ?_) fun cb stage => ?_
      · change _ = word (!s.source.setters.isEmpty) false
        rw [stopped]
        exact (by decide : stopRequestedFlag = word true false)
      · have same : tmp = cb := inv.taken_subject (known ▸ rfl) stage
        rw [same]
      · obtain ⟨member, completed | executing⟩ := inv.ran cb i stage
        · exact ⟨member, .inl completed⟩
        · exact absurd (known.symm.trans executing) nofun
  | @execute tmp =>
      obtain ⟨member, taken⟩ : i ∈ s.source.setters ∧ s.source.stage tmp = .taken i := ok
      refine inv.update (.of_stage (taken ▸ .run) rfl rfl rfl rfl)
        ⟨member, Function.update_self _ _ _⟩ inv.state (inv.holder_same (known ▸ rfl))
        (inv.list_advance (taken ▸ nofun) nofun)
        (inv.detached_advance (fun _ _ _ => rfl) fun _ _ => inv.detached tmp i (.inl taken))
        (inv.registered_advance (taken ▸ Iff.rfl)) inv.atStop
        (inv.executed_append (taken ▸ rfl) rfl) (fun other again => ?_) fun other ran => ?_
      · replace again : Function.update s.source.stage tmp (.ran i) other = .taken i := again
        by_cases same : other = tmp
        · rw [same, Function.update_self] at again
          exact absurd again nofun
        · rw [Function.update_of_ne same] at again
          exact absurd (inv.taken_subject (known ▸ rfl) again).symm same
      · replace ran : Function.update s.source.stage tmp (.ran i) other = .ran i := ran
        by_cases same : other = tmp
        · exact ⟨member, .inr (same ▸ rfl)⟩
        · rw [Function.update_of_ne same] at ran
          obtain ⟨member, completed | executing⟩ := inv.ran other i ran
          · exact ⟨member, .inl completed⟩
          · exact absurd (known.symm.trans executing) nofun
  | @complete tmp =>
      have kept : ∀ cb, s.source.completed cb = true →
          Function.update s.source.completed tmp true cb = true := by
        intro cb completed
        rw [Function.update_apply]
        split
        · rfl
        · exact completed
      refine inv.relabel ⟨.inl rfl, fun _ => .inl rfl, fun _ => .inl rfl, kept⟩ ok.1 inv.state
        (inv.holder_same (known ▸ rfl)) rfl rfl rfl inv.atStop rfl (fun cb stage => ?_)
        fun cb stage => ?_
      · rcases inv.taken cb i stage with release | execute
        · exact absurd (known.symm.trans release) nofun
        · exact absurd (known.symm.trans execute) nofun
      · obtain ⟨member, completed | executing⟩ := inv.ran cb i stage
        · exact ⟨member, .inl (kept cb completed)⟩
        · have same : Call.requestStop (.executing tmp) = .requestStop (.executing cb) :=
            known.symm.trans executing
          obtain rfl : tmp = cb := by simpa using same
          exact ⟨member, .inl (Function.update_self _ _ _)⟩
  | relock => exact attempt ok (known ▸ rfl) (known ▸ rfl)
  | loseRelock => exact attempt ok.1 (known ▸ rfl) (known ▸ rfl)
  | @winRelock prev same =>
      obtain ⟨member, unlocked⟩ : i ∈ s.source.setters ∧ prev &&& lockedFlag = 0 := ok
      obtain ⟨free, value⟩ := inv.free_of_unlocked (same ▸ unlocked)
      refine inv.lock (known ▸ rfl) free rfl ?_ member
      rw [same.symm.trans value, word_lock]
  | last head =>
      obtain ⟨nodes, holds, listed⟩ := inv.list
      have none : nodes = [] := by
        have chain := holds.chain
        rw [show s.source.list.read .head = none from head] at chain
        exact chain.of_none
      refine inv.goto (known ▸ rfl) ⟨ok, fun cb stage => ?_⟩ (known ▸ rfl)
      have member := (listed cb).mpr stage
      rw [none] at member
      exact absurd member List.not_mem_nil
  | finish =>
      refine inv.unlock (known ▸ rfl) (known ▸ rfl) rfl ?_ ok
      have stopped : (!s.source.setters.isEmpty) = true := by
        simpa using List.ne_nil_of_mem ok.1
      rw [stopped]
      decide

theorem Begins.inv (inv : Inv s) (idle : s.calls i = .idle) (begins : Begins s i after call) :
    Inv { source := after, calls := Function.update s.calls i call } := by
  have quiet : (s.calls i).subject = none := idle ▸ rfl
  have ok : CallOk s.source i .idle := idle ▸ inv.calls i
  cases begins with
  | requestStop => exact inv.goto quiet ok (idle ▸ rfl)
  | @register cb fresh =>
      refine inv.update (.of_stage (fresh ▸ .register) rfl rfl rfl rfl)
        (Function.update_self _ _ _) inv.state (inv.holder_same (idle ▸ rfl))
        (inv.list_advance (fresh ▸ nofun) nofun)
        (inv.detached_advance (fun _ _ _ => rfl) nofun)
        (inv.registered_advance (fresh ▸ Iff.rfl)) inv.atStop
        (inv.executed_advance (fresh ▸ rfl)) (fun other taken => ?_) fun other ran => ?_
      · have free : Stage.registering i ≠ .taken i := nofun
        exact absurd taken (inv.not_taken_advance quiet cb free other)
      · have free : Stage.registering i ≠ .ran i := nofun
        exact (inv.ran_advance quiet cb free ran).imp_right .inl
  | @remove cb j constructed unclaimed =>
      have linked : CallOk s.source j (.register cb (.returned true)) :=
        constructed ▸ inv.calls j
      refine inv.relabel ⟨.inl rfl, fun other => ?_, fun _ => .inl rfl, fun _ => id⟩
        ⟨Function.update_self _ _ _, linked, fun removed => inv.removed cb removed unclaimed⟩
        inv.state (inv.holder_same (idle ▸ rfl)) rfl rfl rfl inv.atStop rfl
        (fun other stage => absurd stage (inv.not_taken quiet other))
        fun _ stage => (inv.ran_completed quiet stage).imp_right .inl
      by_cases same : other = cb
      · exact .inr (same ▸ unclaimed)
      · exact .inl (Function.update_of_ne same _ _)

theorem Inv.step (inv : Inv s) {next : State Id} (step : Step s i next) : Inv next := by
  cases step with
  | begin idle begins => exact begins.inv inv idle
  | move move =>
      generalize known : s.calls i = call at move
      cases move with
      | register move => exact move.inv inv known
      | remove move => exact move.inv inv known
      | requestStop move => exact move.inv inv known

theorem inv_of_reachable (reachable : (system Id).Reachable s) : Inv s := by
  induction reachable with
  | init initial =>
      obtain rfl := initial
      exact inv_init
  | step _ step inductionHypothesis => exact inductionHypothesis.step step

end Invariant

end NgrCore.StopSource
