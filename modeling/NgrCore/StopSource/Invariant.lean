import NgrCore.StopSource

/-!
Owns the invariant of `__stop_source`: what the position of a call says about the lock,
the list and the callbacks, and what a step of one call leaves to the others.
-/

namespace NgrCore.StopSource

open Library

/-- `__state_` of a source whose stop flag and lock bit are known. -/
def word (stopped locked : Bool) : BitVec 8 :=
  (if stopped then stopRequestedFlag else noneFlag) ||| (if locked then lockedFlag else noneFlag)

section Definitions

variable {Id : Type}

/-- Registered, whatever happened since. -/
def Stage.Linked : Stage Id → Prop
  | .listed | .removed | .taken _ | .ran _ => True
  | _ => False

/-- The call that a callback is with. -/
def Stage.owner : Stage Id → Option Id
  | .registering i | .taken i | .ran i | .ranInside i => some i
  | _ => none

/-- The executions of a callback that has come this far. -/
def Stage.executions (cb : Callback) : Stage Id → List (Callback × Id)
  | .ran i | .ranInside i => [(cb, i)]
  | _ => []

/-- The positions between taking and releasing the lock. -/
def Call.holds : Call → Bool
  | .register _ .push | .register _ .unlock => true
  | .remove _ (.unlink _) | .remove _ (.unlock _ _) => true
  | .requestStop .notify | .requestStop .test | .requestStop (.release _) => true
  | .requestStop .finish => true
  | _ => false

def RegisterOk (source : Source Id) (i : Id) (cb : Callback) : RegisterPc → Prop
  | .load | .exchange | .execute => source.stage cb = .registering i
  | .push => source.stage cb = .registering i ∧ source.setters = []
  | .unlock => (source.stage cb).Linked ∧ source.setters = []
  | .executing | .returned false => source.stage cb = .ranInside i
  | .returned true => (source.stage cb).Linked

def RemoveOk (source : Source Id) (cb : Callback) : RemovePc → Prop
  | .load => source.stage cb ≠ .removed
  | .exchange prev => source.stage cb ≠ .removed ∧ prev &&& lockedFlag = 0
  | .unlink prev => source.stage cb ≠ .removed ∧ prev = word (!source.setters.isEmpty) false
  | .unlock prev _ => prev = word (!source.setters.isEmpty) false
  | .wait | .returned => True

def RequestOk (source : Source Id) (i : Id) : RequestPc → Prop
  | .load | .exchange | .returned true => i ∉ source.setters
  | .notify | .test | .relock => i ∈ source.setters
  | .relockExchange prev => i ∈ source.setters ∧ prev &&& lockedFlag = 0
  | .release tmp | .execute tmp => i ∈ source.setters ∧ source.stage tmp = .taken i
  | .executing tmp => i ∈ source.setters ∧ source.stage tmp = .ran i
  | .finish | .returned false => i ∈ source.setters ∧ ∀ cb, source.stage cb ≠ .listed

/-- What the position of a call says about the source. -/
def CallOk (source : Source Id) (i : Id) : Call → Prop
  | .idle => i ∉ source.setters
  | .register cb pc => RegisterOk source i cb pc
  | .remove cb pc =>
      source.remover cb = some i ∧ (source.stage cb).Linked ∧ RemoveOk source cb pc
  | .requestStop pc => RequestOk source i pc

/-- How one step of a call may change how far a callback has come. -/
inductive Advance (source : Source Id) (i : Id) (cb : Callback) : Stage Id → Stage Id → Prop
  | register : Advance source i cb .fresh (.registering i)
  | push : source.setters = [] → Advance source i cb (.registering i) .listed
  | inside : Advance source i cb (.registering i) (.ranInside i)
  | take : Advance source i cb .listed (.taken i)
  | remove : source.remover cb = some i → Advance source i cb .listed .removed
  | run : Advance source i cb (.taken i) (.ran i)

/-- What a step of one call leaves to the others. -/
structure Guarantee (i : Id) (source after : Source Id) : Prop where
  setters : after.setters = source.setters ∨
    source.setters = [] ∧ source.holder = none ∧ after.setters = [i]
  remover : ∀ cb, after.remover cb = source.remover cb ∨ source.remover cb = none
  stage : ∀ cb, after.stage cb = source.stage cb ∨
    Advance source i cb (source.stage cb) (after.stage cb)
  completed : ∀ cb, source.completed cb = true → after.completed cb = true

end Definitions

section Rely

variable {Id : Type} {source after : Source Id} {i j : Id} {cb : Callback}

section Advances

variable {stage next : Stage Id}

theorem Advance.linked (advance : Advance source i cb stage next) (linked : stage.Linked) :
    next.Linked := by
  cases advance with
  | register | inside => exact linked.elim
  | push | take | remove | run => trivial

theorem Advance.owner (advance : Advance source i cb stage next)
    (owner : stage.owner = some j) : j = i := by
  cases advance with
  | register | take | remove => exact absurd owner nofun
  | push | inside | run => exact (Option.some.inj owner).symm

theorem Advance.owner_next (advance : Advance source i cb stage next)
    (owner : next.owner = some j) : j = i := by
  cases advance with
  | push | remove => exact absurd owner nofun
  | register | inside | take | run => exact (Option.some.inj owner).symm

theorem Advance.ne_removed (advance : Advance source i cb stage next)
    (remover : source.remover cb = some j) (other : j ≠ i) : next ≠ .removed := by
  cases advance with
  | remove mine => exact absurd (Option.some.inj (remover.symm.trans mine)) other
  | register | push | inside | take | run => exact nofun

theorem Advance.ne_listed (advance : Advance source i cb stage next)
    (stopped : source.setters ≠ []) : next ≠ .listed := by
  cases advance with
  | push running => exact absurd running stopped
  | register | inside | take | remove | run => exact nofun

end Advances

namespace Guarantee

theorem refl (i : Id) (source : Source Id) : Guarantee i source source :=
  ⟨.inl rfl, fun _ => .inl rfl, fun _ => .inl rfl, fun _ => id⟩

theorem linked (guarantee : Guarantee i source after) (linked : (source.stage cb).Linked) :
    (after.stage cb).Linked := by
  rcases guarantee.stage cb with same | advance
  · exact same ▸ linked
  · exact advance.linked linked

theorem stage_eq (guarantee : Guarantee i source after) (other : j ≠ i)
    (owner : (source.stage cb).owner = some j) : after.stage cb = source.stage cb := by
  rcases guarantee.stage cb with same | advance
  · exact same
  · exact absurd (advance.owner owner) other

/-- A callback that is with another call was there before. -/
theorem stage_eq_of_after (guarantee : Guarantee i source after) (other : j ≠ i)
    (owner : (after.stage cb).owner = some j) : after.stage cb = source.stage cb := by
  rcases guarantee.stage cb with same | advance
  · exact same
  · exact absurd (advance.owner_next owner) other

theorem ne_removed (guarantee : Guarantee i source after) (other : j ≠ i)
    (remover : source.remover cb = some j) (present : source.stage cb ≠ .removed) :
    after.stage cb ≠ .removed := by
  rcases guarantee.stage cb with same | advance
  · exact same ▸ present
  · exact advance.ne_removed remover other

theorem ne_listed (guarantee : Guarantee i source after) (stopped : source.setters ≠ [])
    (absent : source.stage cb ≠ .listed) : after.stage cb ≠ .listed := by
  rcases guarantee.stage cb with same | advance
  · exact same ▸ absent
  · exact advance.ne_listed stopped

theorem mem_setters (guarantee : Guarantee i source after) (other : j ≠ i) :
    j ∈ after.setters ↔ j ∈ source.setters := by
  rcases guarantee.setters with same | ⟨empty, _, mine⟩
  · rw [same]
  · simp [empty, mine, other]

theorem setters_eq (guarantee : Guarantee i source after)
    (held : source.holder = some j) : after.setters = source.setters := by
  rcases guarantee.setters with same | ⟨_, free, _⟩
  · exact same
  · exact absurd (held.symm.trans free) nofun

theorem remover_eq (guarantee : Guarantee i source after)
    (remover : source.remover cb = some j) : after.remover cb = some j := by
  rcases guarantee.remover cb with same | none
  · rw [same, remover]
  · exact absurd (remover.symm.trans none) nofun

/-- What a call relies on survives the steps of the others. -/
theorem registerOk (guarantee : Guarantee i source after) (other : j ≠ i)
    {pc : RegisterPc} (held : (Call.register cb pc).holds = true → source.holder = some j)
    (ok : RegisterOk source j cb pc) : RegisterOk after j cb pc := by
  have stays (same : (source.stage cb).owner = some j) : after.stage cb = source.stage cb :=
    guarantee.stage_eq other same
  cases pc with
  | load | exchange | execute | executing =>
      have ok : source.stage cb = _ := ok
      exact (stays (ok ▸ rfl)).trans ok
  | push => exact ⟨(stays (ok.1 ▸ rfl)).trans ok.1, (guarantee.setters_eq (held rfl)).trans ok.2⟩
  | unlock => exact ⟨guarantee.linked ok.1, (guarantee.setters_eq (held rfl)).trans ok.2⟩
  | returned pushed =>
      cases pushed with
      | true => exact guarantee.linked ok
      | false =>
          have ok : source.stage cb = _ := ok
          exact (stays (ok ▸ rfl)).trans ok

theorem removeOk (guarantee : Guarantee i source after) (other : j ≠ i)
    {pc : RemovePc} (held : (Call.remove cb pc).holds = true → source.holder = some j)
    (remover : source.remover cb = some j) (ok : RemoveOk source cb pc) :
    RemoveOk after cb pc := by
  have present (before : source.stage cb ≠ .removed) : after.stage cb ≠ .removed :=
    guarantee.ne_removed other remover before
  cases pc with
  | load => exact present ok
  | exchange prev => exact ⟨present ok.1, ok.2⟩
  | unlink prev =>
      refine ⟨present ok.1, ?_⟩
      rw [guarantee.setters_eq (held rfl)]
      exact ok.2
  | unlock prev waits =>
      change prev = _
      rw [guarantee.setters_eq (held rfl)]
      exact ok
  | wait | returned => trivial

theorem requestOk (guarantee : Guarantee i source after) (other : j ≠ i) {pc : RequestPc}
    (ok : RequestOk source j pc) : RequestOk after j pc := by
  have setters := guarantee.mem_setters other
  have stays {tmp : Callback} (same : (source.stage tmp).owner = some j) :
      after.stage tmp = source.stage tmp :=
    guarantee.stage_eq other same
  have none (ok : j ∈ source.setters ∧ ∀ cb, source.stage cb ≠ .listed) :
      j ∈ after.setters ∧ ∀ cb, after.stage cb ≠ .listed :=
    ⟨setters.mpr ok.1, fun cb => guarantee.ne_listed (List.ne_nil_of_mem ok.1) (ok.2 cb)⟩
  cases pc with
  | load | exchange => exact fun member => ok (setters.mp member)
  | notify | test | relock => exact setters.mpr ok
  | relockExchange prev => exact ⟨setters.mpr ok.1, ok.2⟩
  | release tmp | execute tmp | executing tmp =>
      exact ⟨setters.mpr ok.1, (stays (ok.2 ▸ rfl)).trans ok.2⟩
  | finish => exact none ok
  | returned result =>
      cases result with
      | true => exact fun member => ok (setters.mp member)
      | false => exact none ok

theorem callOk (guarantee : Guarantee i source after) (other : j ≠ i) {call : Call}
    (held : call.holds = true → source.holder = some j) (ok : CallOk source j call) :
    CallOk after j call := by
  cases call with
  | idle => exact fun member => ok ((guarantee.mem_setters other).mp member)
  | register cb pc => exact guarantee.registerOk other held ok
  | remove cb pc =>
      exact ⟨guarantee.remover_eq ok.1, guarantee.linked ok.2.1,
        guarantee.removeOk other held ok.1 ok.2.2⟩
  | requestStop pc => exact guarantee.requestOk other ok

end Guarantee

end Rely

end NgrCore.StopSource
