import NgrCore.Library.SlotList
import NgrCore.Library.Transition

/-!
Owns `__stop_source` and the callbacks registered with it: a list under a spin lock whose
word is also the stop flag, and the calls that work on it. Every atomic operation is one
step, and so are the plain accesses between two of them, which only the holder of the
lock makes.

A callback is a number that is never used again, and so is a call. A callback may run
calls of its own; they are calls like any other.
-/

namespace NgrCore.StopSource

open Library

def noneFlag : BitVec 8 := 0

def stopRequestedFlag : BitVec 8 := 1

def lockedFlag : BitVec 8 := 2

/-- A `__stop_cb_base *`. -/
abbrev Callback := Nat

/-- How far a callback has come, and by which call: `listed` is registered and neither
removed nor taken, `ranInside` has found stop requested. -/
inductive Stage (Id : Type)
  | fresh
  | registering (i : Id)
  | listed
  | removed
  | taken (i : Id)
  | ran (i : Id)
  | ranInside (i : Id)
deriving Repr, DecidableEq

/-- `__state_`, `__callback_` with the links of the callbacks, `__notify_`, and
`__callback_completed_` of every callback. For the proofs only: the call that holds the
lock, the calls that have set the stop flag, how far callbacks have come and which call
removes them, the callbacks registered so far and those registered when the flag was
set, and the executions with their calls. -/
structure Source (Id : Type) where
  state : BitVec 8 := noneFlag
  list : SlotList Callback := {}
  notify : Bool := false
  completed : Callback → Bool := fun _ => false
  holder : Option Id := none
  setters : List Id := []
  stage : Callback → Stage Id := fun _ => .fresh
  remover : Callback → Option Id := fun _ => none
  registered : List Callback := []
  atStop : List Callback := []
  executed : List (Callback × Id) := []

/-- Where a call of `_M_register_callback` stands; `returned` says whether `__source_` is
still there. -/
inductive RegisterPc
  | load
  | exchange
  | push
  | unlock
  | execute
  | executing
  | returned (pushed : Bool)
deriving Repr, DecidableEq

/-- Where a call of `_M_remove_callback` stands. -/
inductive RemovePc
  | load
  | exchange (prev : BitVec 8)
  | unlink (prev : BitVec 8)
  | unlock (prev : BitVec 8) (waits : Bool)
  | wait
  | returned
deriving Repr, DecidableEq

/-- Where a call of `_M_request_stop` stands. -/
inductive RequestPc
  | load
  | exchange
  | notify
  | test
  | release (tmp : Callback)
  | execute (tmp : Callback)
  | executing (tmp : Callback)
  | relock
  | relockExchange (prev : BitVec 8)
  | finish
  | returned (result : Bool)
deriving Repr, DecidableEq

inductive Call
  | idle
  | register (cb : Callback) (pc : RegisterPc)
  | remove (cb : Callback) (pc : RemovePc)
  | requestStop (pc : RequestPc)
deriving Repr, DecidableEq

/-- What `_M_try_lock_unless_stop_requested` does with the value it has read. -/
def tryNext {α : Type} (prev : BitVec 8) (refused exchange load : α) : α :=
  if prev &&& stopRequestedFlag ≠ 0 then refused
  else if prev = noneFlag then exchange
  else load

/-- What `_M_lock` does with the value it has read. -/
def lockNext {α : Type} (prev : BitVec 8) (exchange : BitVec 8 → α) (load : α) : α :=
  if prev &&& lockedFlag ≠ 0 then load else exchange prev

section Moves

variable {Id : Type} [DecidableEq Id]

namespace Source

/-- A successful exchange that takes the lock. -/
def lock (source : Source Id) (i : Id) (state : BitVec 8) : Source Id :=
  { source with state, holder := some i }

/-- A store to `__state_` that releases the lock. -/
def unlock (source : Source Id) (state : BitVec 8) : Source Id :=
  { source with state, holder := none }

def setStage (source : Source Id) (cb : Callback) (stage : Stage Id) : Source Id :=
  { source with stage := Function.update source.stage cb stage }

/-- `_M_execute` of a callback begins. -/
def execute (source : Source Id) (cb : Callback) (i : Id) : Source Id :=
  { source with executed := source.executed ++ [(cb, i)] }

end Source

/-- The steps of `_M_register_callback` and `_M_try_push_front_callback`. A weak exchange
may also fail on an equal value. -/
inductive RegisterMove (source : Source Id) (i : Id) (cb : Callback) :
    RegisterPc → Source Id → RegisterPc → Prop
  | load : RegisterMove source i cb .load source
      (tryNext source.state .execute .exchange .load)
  | lose : RegisterMove source i cb .exchange source
      (tryNext source.state .execute .exchange .load)
  | win : source.state = noneFlag →
      RegisterMove source i cb .exchange (source.lock i lockedFlag) .push
  | push : RegisterMove source i cb .push
      { source.setStage cb .listed with
        list := source.list.pushFront cb
        registered := source.registered ++ [cb] } .unlock
  | unlock : RegisterMove source i cb .unlock (source.unlock noneFlag) (.returned true)
  | execute : RegisterMove source i cb .execute
      ((source.setStage cb (.ranInside i)).execute cb i) .executing
  | finish : RegisterMove source i cb .executing source (.returned false)

inductive RemoveMove (source : Source Id) (i : Id) (cb : Callback) :
    RemovePc → Source Id → RemovePc → Prop
  | load : RemoveMove source i cb .load source (lockNext source.state .exchange .load)
  | lose {prev : BitVec 8} :
      RemoveMove source i cb (.exchange prev) source (lockNext source.state .exchange .load)
  | win {prev : BitVec 8} : source.state = prev →
      RemoveMove source i cb (.exchange prev) (source.lock i (prev ||| lockedFlag))
        (.unlink prev)
  | unlink {prev : BitVec 8} {slot : Slot Callback} : source.list.prev cb = some slot →
      RemoveMove source i cb (.unlink prev)
        { source.setStage cb .removed with list := source.list.unlink cb slot }
        (.unlock prev false)
  | taken {prev : BitVec 8} : source.list.prev cb = none →
      RemoveMove source i cb (.unlink prev) source (.unlock prev source.notify)
  | unlock {prev : BitVec 8} {waits : Bool} :
      RemoveMove source i cb (.unlock prev waits) (source.unlock prev)
        (if waits then .wait else .returned)
  | wait : source.completed cb = true → RemoveMove source i cb .wait source .returned

inductive RequestMove (source : Source Id) (i : Id) :
    RequestPc → Source Id → RequestPc → Prop
  | load : RequestMove source i .load source
      (tryNext source.state (.returned true) .exchange .load)
  | lose : RequestMove source i .exchange source
      (tryNext source.state (.returned true) .exchange .load)
  | win : source.state = noneFlag →
      RequestMove source i .exchange
        { source.lock i (lockedFlag ||| stopRequestedFlag) with
          setters := source.setters ++ [i]
          atStop := source.registered } .notify
  | notify : RequestMove source i .notify { source with notify := true } .test
  | take {tmp : Callback} : source.list.head = some tmp →
      RequestMove source i .test
        { source.setStage tmp (.taken i) with list := source.list.popFront tmp }
        (.release tmp)
  | release {tmp : Callback} :
      RequestMove source i (.release tmp) (source.unlock stopRequestedFlag) (.execute tmp)
  | execute {tmp : Callback} :
      RequestMove source i (.execute tmp) ((source.setStage tmp (.ran i)).execute tmp i)
        (.executing tmp)
  | complete {tmp : Callback} :
      RequestMove source i (.executing tmp)
        { source with completed := Function.update source.completed tmp true } .relock
  | relock : RequestMove source i .relock source
      (lockNext source.state .relockExchange .relock)
  | loseRelock {prev : BitVec 8} : RequestMove source i (.relockExchange prev) source
      (lockNext source.state .relockExchange .relock)
  | winRelock {prev : BitVec 8} : source.state = prev →
      RequestMove source i (.relockExchange prev) (source.lock i (prev ||| lockedFlag)) .test
  | last : source.list.head = none → RequestMove source i .test source .finish
  | finish : RequestMove source i .finish (source.unlock stopRequestedFlag) (.returned false)

inductive Move (source : Source Id) (i : Id) : Call → Source Id → Call → Prop
  | register {cb : Callback} {pc next : RegisterPc} {after : Source Id} :
      RegisterMove source i cb pc after next →
      Move source i (.register cb pc) after (.register cb next)
  | remove {cb : Callback} {pc next : RemovePc} {after : Source Id} :
      RemoveMove source i cb pc after next →
      Move source i (.remove cb pc) after (.remove cb next)
  | requestStop {pc next : RequestPc} {after : Source Id} :
      RequestMove source i pc after next →
      Move source i (.requestStop pc) after (.requestStop next)

/-- A source and every call that is or will be made on it. -/
structure State (Id : Type) where
  source : Source Id := {}
  calls : Id → Call := fun _ => .idle

/-- The calls that may begin. A callback is registered once, by its constructor, and
removed once at most, by its destructor, if the constructor has left `__source_` in
place. -/
inductive Begins (s : State Id) (i : Id) : Source Id → Call → Prop
  | register {cb : Callback} : s.source.stage cb = .fresh →
      Begins s i (s.source.setStage cb (.registering i)) (.register cb .load)
  | remove {cb : Callback} {j : Id} : s.calls j = .register cb (.returned true) →
      s.source.remover cb = none →
      Begins s i { s.source with remover := Function.update s.source.remover cb (some i) }
        (.remove cb .load)
  | requestStop : Begins s i s.source (.requestStop .load)

inductive Step (s : State Id) (i : Id) : State Id → Prop
  | begin {after : Source Id} {call : Call} :
      s.calls i = .idle → Begins s i after call →
      Step s i { source := after, calls := Function.update s.calls i call }
  | move {after : Source Id} {call : Call} :
      Move s.source i (s.calls i) after call →
      Step s i { source := after, calls := Function.update s.calls i call }

/-- A source without callbacks, and calls by any number of threads. -/
def system (Id : Type) [DecidableEq Id] : System (State Id) Id where
  Init s := s = {}
  Step := Step

end Moves

end NgrCore.StopSource
