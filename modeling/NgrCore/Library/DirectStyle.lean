import Mathlib.Data.List.Basic

/-!
Owns programs that await other programs and suspend for answers from outside, their meaning
in direct style, and the stack machine that runs them.

Proves that the machine keeps the meaning of what it has still to do, and that it runs only
finitely many steps between two answers.
-/

namespace NgrCore.Library

/-- A program. `await` runs a child and goes on with its outcome, `drop` makes a child that it
never runs, and `suspend` waits for an answer. The kind of a child says what its parent sees
of its value. -/
inductive Body (Kind Value Payload Error Answer : Type)
  | ret (value : Value)
  | throw (error : Error)
  | await (kind : Kind) (child : Body Kind Value Payload Error Answer)
      (next : Except Error Payload → Body Kind Value Payload Error Answer)
  | drop (kind : Kind) (child next : Body Kind Value Payload Error Answer)
  | suspend (next : Answer → Body Kind Value Payload Error Answer)

/-- A program that awaits, and how it goes on. -/
structure Frame (Kind Value Payload Error Answer : Type) where
  kind : Kind
  next : Except Error Payload → Body Kind Value Payload Error Answer

/-- What the machine has still to do: the innermost program or its outcome, and the programs
that await, innermost first. -/
inductive Todo (Kind Value Payload Error Answer : Type)
  | run (kind : Kind) (body : Body Kind Value Payload Error Answer)
      (frames : List (Frame Kind Value Payload Error Answer))
  | done (outcome : Except Error Payload)
      (frames : List (Frame Kind Value Payload Error Answer))

section Meaning

variable {Kind Value Payload Error Answer : Type} (see : Kind → Value → Payload)

/-- The meaning in direct style: the outcome and the answers left over, if there were
enough. -/
def Body.eval : Kind → Body Kind Value Payload Error Answer → List Answer →
    Option (Except Error Payload × List Answer)
  | kind, .ret value, answers => some (.ok (see kind value), answers)
  | _, .throw error, answers => some (.error error, answers)
  | kind, .await childKind child next, answers =>
      (eval childKind child answers).bind fun result => eval kind (next result.1) result.2
  | kind, .drop _ _ next, answers => eval kind next answers
  | _, .suspend _, [] => none
  | kind, .suspend next, answer :: rest => eval kind (next answer) rest

/-- An outcome is fed to the programs that await. -/
def feed : List (Frame Kind Value Payload Error Answer) → Except Error Payload → List Answer →
    Option (Except Error Payload × List Answer)
  | [], outcome, answers => some (outcome, answers)
  | frame :: frames, outcome, answers =>
      ((frame.next outcome).eval see frame.kind answers).bind fun result =>
        feed frames result.1 result.2

/-- The meaning of what is still to do. -/
def Todo.meaning : Todo Kind Value Payload Error Answer → List Answer →
    Option (Except Error Payload × List Answer)
  | .run kind body frames, answers =>
      (body.eval see kind answers).bind fun result => feed see frames result.1 result.2
  | .done outcome frames, answers => feed see frames outcome answers

/-- The steps of the machine between two answers. -/
inductive Todo.Next :
    Todo Kind Value Payload Error Answer → Todo Kind Value Payload Error Answer → Prop
  | ret (kind : Kind) (value : Value) (frames : List (Frame Kind Value Payload Error Answer)) :
      Next (.run kind (.ret value) frames) (.done (.ok (see kind value)) frames)
  | throw (kind : Kind) (error : Error) (frames : List (Frame Kind Value Payload Error Answer)) :
      Next (.run kind (.throw error) frames) (.done (.error error) frames)
  | await (kind childKind : Kind) (child : Body Kind Value Payload Error Answer)
      (next : Except Error Payload → Body Kind Value Payload Error Answer)
      (frames : List (Frame Kind Value Payload Error Answer)) :
      Next (.run kind (.await childKind child next) frames)
        (.run childKind child (⟨kind, next⟩ :: frames))
  | drop (kind childKind : Kind) (child next : Body Kind Value Payload Error Answer)
      (frames : List (Frame Kind Value Payload Error Answer)) :
      Next (.run kind (.drop childKind child next) frames) (.run kind next frames)
  | goesOn (outcome : Except Error Payload) (frame : Frame Kind Value Payload Error Answer)
      (frames : List (Frame Kind Value Payload Error Answer)) :
      Next (.done outcome (frame :: frames)) (.run frame.kind (frame.next outcome) frames)

variable {see} {kind : Kind} {body : Body Kind Value Payload Error Answer}
  {frames : List (Frame Kind Value Payload Error Answer)}
  {todo after : Todo Kind Value Payload Error Answer}

/-- A step keeps the meaning. -/
theorem Todo.Next.meaning (step : Todo.Next see todo after) :
    after.meaning see = todo.meaning see := by
  funext answers
  cases step with
  | ret => simp [Todo.meaning, Body.eval]
  | throw => simp [Todo.meaning, Body.eval]
  | await => simp [Todo.meaning, Body.eval, feed, Option.bind_assoc]
  | drop => simp [Todo.meaning, Body.eval]
  | goesOn => simp [Todo.meaning, feed]

/-! ### Termination -/

/-- Every chain of steps from here is finite. -/
abbrev Todo.Ends (see : Kind → Value → Payload) (todo : Todo Kind Value Payload Error Answer) :
    Prop :=
  Acc (fun after before => Todo.Next see before after) todo

/-- A program ends where every outcome of it does. -/
theorem run_ends (body : Body Kind Value Payload Error Answer) (kind : Kind)
    (frames : List (Frame Kind Value Payload Error Answer))
    (ends : ∀ outcome, Todo.Ends see (.done outcome frames)) :
    Todo.Ends see (.run kind body frames) := by
  induction body generalizing kind frames with
  | ret value =>
      constructor
      intro after step
      cases step
      exact ends _
  | throw error =>
      constructor
      intro after step
      cases step
      exact ends _
  | await childKind child next childEnds nextEnds =>
      constructor
      intro after step
      cases step
      apply childEnds
      intro outcome
      constructor
      intro later goesOn
      cases goesOn
      exact nextEnds outcome kind frames ends
  | drop childKind child next childEnds nextEnds =>
      constructor
      intro after step
      cases step
      exact nextEnds kind frames ends
  | suspend next =>
      constructor
      intro after step
      cases step

/-- The machine runs only finitely many steps. -/
theorem Todo.ends (todo : Todo Kind Value Payload Error Answer) : todo.Ends see := by
  have done : ∀ (frames : List (Frame Kind Value Payload Error Answer)) outcome,
      Todo.Ends see (.done outcome frames) := by
    intro frames
    induction frames with
    | nil =>
        intro outcome
        constructor
        intro after step
        cases step
    | cons frame frames inductionHypothesis =>
        intro outcome
        constructor
        intro after step
        cases step
        exact run_ends _ _ _ inductionHypothesis
  cases todo with
  | run kind body frames => exact run_ends body kind frames (done frames)
  | done outcome frames => exact done frames outcome

end Meaning

end NgrCore.Library
