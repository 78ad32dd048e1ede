import Mathlib.Data.List.Nodup
import NgrCore.TaskResult

/-!
Owns what running a spawned task amounts to: the program in direct style.

Proves that promises, continuations and symmetric transfer keep the meaning of the program,
that a task's storage is read and destroyed only after it holds a result or an error, unless
a task with a value is destroyed before it has run, and that every resumption comes back.
-/

namespace NgrCore.TaskResult

open NgrCore.Library

variable {Value Error Answer : Type}

/-- The tasks that await, from the one that awaits `t` to the first, and how they go on. -/
inductive Awaited (s : State Value Error Answer) : Nat → List Nat →
    List (Frame Bool Value (Option Value) Error Answer) → Prop
  | first {t : Nat} (continuation : (s.promise t).continuation = .spawned) : Awaited s t [] []
  | frame {t p : Nat} {ps : List Nat} {frames : List (Frame Bool Value (Option Value) Error Answer)}
      {next : Except Error (Option Value) → Code Value Error Answer}
      (continuation : (s.promise t).continuation = .task p)
      (position : (s.promise p).position = .awaiting t next)
      (fresh : (s.promise p).storage = .make (s.promise p).void)
      (rest : Awaited s p ps frames) :
      Awaited s t (p :: ps) (⟨(s.promise p).void, next⟩ :: frames)

/-- The tasks alive are one that runs or is suspended, and those that await. -/
structure Held (s : State Value Error Answer) (t : Nat) (ps : List Nat)
    (frames : List (Frame Bool Value (Option Value) Error Answer)) : Prop where
  awaited : Awaited s t ps frames
  distinct : (t :: ps).Nodup
  alive : ∀ x, (s.promise x).alive = true ↔ x ∈ t :: ps

/-- What a state has still to do, by what runs. -/
def Control.Does (s : State Value Error Answer)
    (todo : Todo Bool Value (Option Value) Error Answer) : Control Value Error Answer → Prop
  | .stopped => ∃ t ps frames, Held s t ps frames ∧
      (s.promise t).storage = .make (s.promise t).void ∧
      ((∃ code, (s.promise t).position = .initial code ∧
          todo = .run (s.promise t).void code frames) ∨
        ∃ next, (s.promise t).position = .suspended next ∧
          todo = .run (s.promise t).void (.suspend next) frames)
  | .running t code => ∃ ps frames, Held s t ps frames ∧
      (s.promise t).storage = .make (s.promise t).void ∧
      todo = .run (s.promise t).void code frames
  | .final t => ∃ ps frames outcome, Held s t ps frames ∧
      (s.promise t).storage.awaitResume = some outcome ∧
      (s.promise t).storage.destroyable = true ∧ todo = .done outcome frames
  | .returned => (∀ t, (s.promise t).alive = false) ∧
      ∃ outcome, s.outcome = some outcome ∧ todo = .done outcome []

/-- The coroutines hold what the stack machine has still to do. -/
structure Stands (s : State Value Error Answer)
    (todo : Todo Bool Value (Option Value) Error Answer) : Prop where
  new : ∀ t, s.count ≤ t → (s.promise t).alive = false
  does : s.control.Does s todo

/-- What a step does to it. -/
inductive Follows (next : State Value Error Answer) : Event Answer →
    Todo Bool Value (Option Value) Error Answer → Todo Bool Value (Option Value) Error Answer →
    Prop
  | start (todo : Todo Bool Value (Option Value) Error Answer) : Follows next .start todo todo
  | answer (kind : Bool) (code : Answer → Code Value Error Answer)
      (frames : List (Frame Bool Value (Option Value) Error Answer)) (answer : Answer) :
      Follows next (.answer answer) (.run kind (.suspend code) frames)
        (.run kind (code answer) frames)
  | rest (todo : Todo Bool Value (Option Value) Error Answer)
      (idle : next.control = .stopped ∨ next.control = .returned) : Follows next .tau todo todo
  | move {todo after : Todo Bool Value (Option Value) Error Answer}
      (moved : Todo.Next payload todo after) : Follows next .tau todo after
  | drop {todo after : Todo Bool Value (Option Value) Error Answer} (void : Bool)
      (moved : Todo.Next payload todo after) : Follows next (.drop void) todo after

section Storage

variable {storage : Storage Value Error}

/-- A value that is returned is what `await_resume` gives. -/
theorem awaitResume_value (void : Bool) (value : Value) :
    ((Storage.make void : Storage Value Error).returnValue value).awaitResume =
      some (.ok (payload void value)) := by
  cases void <;> rfl

theorem awaitResume_error (void : Bool) (error : Error) :
    ((Storage.make void : Storage Value Error).setException error).awaitResume =
      some (.error error) := by
  cases void <;> rfl

theorem destroyable_value (void : Bool) (value : Value) :
    ((Storage.make void : Storage Value Error).returnValue value).destroyable = true := by
  cases void <;> rfl

theorem destroyable_error (void : Bool) (error : Error) :
    ((Storage.make void : Storage Value Error).setException error).destroyable = true := by
  cases void <;> rfl

/-- Only a task with a value must not be destroyed before it has run. -/
theorem destroyable_make (void : Bool) :
    (Storage.make void : Storage Value Error).destroyable = void := by
  cases void <;> rfl

end Storage

section Chains

variable {s next : State Value Error Answer} {t : Nat} {ps : List Nat}
  {frames : List (Frame Bool Value (Option Value) Error Answer)}

theorem Awaited.congr (awaited : Awaited s t ps frames)
    (same : ∀ x ∈ ps, next.promise x = s.promise x)
    (continuation : (next.promise t).continuation = (s.promise t).continuation) :
    Awaited next t ps frames := by
  induction awaited with
  | first spawned => exact .first (continuation.trans spawned)
  | @frame t p ps frames code task position fresh rest inductionHypothesis =>
      have own : next.promise p = s.promise p := same p List.mem_cons_self
      have outer := inductionHypothesis (fun x member => same x (List.mem_cons_of_mem p member))
        (congrArg Promise.continuation own)
      have link := @Awaited.frame _ _ _ next t p ps frames code (continuation.trans task)
        (own.symm ▸ position) (own.symm ▸ fresh) outer
      rw [own] at link
      exact link

theorem Held.not_awaiting (held : Held s t ps frames) {x : Nat} (member : x ∈ ps) : x ≠ t := by
  intro same
  subst same
  exact (List.nodup_cons.mp held.distinct).1 member

theorem Held.update (held : Held s t ps frames) (promise : Promise Value Error Answer)
    (continuation : promise.continuation = (s.promise t).continuation)
    (alive : promise.alive = true) (promises : next.promise = Function.update s.promise t promise) :
    Held next t ps frames := by
  refine ⟨?_, held.distinct, ?_⟩
  · apply held.awaited.congr
    · intro x member
      rw [promises, Function.update_of_ne (held.not_awaiting member)]
    · rw [promises, Function.update_self]
      exact continuation
  · intro x
    rw [promises, ← held.alive x]
    by_cases same : x = t
    · rw [same, Function.update_self, alive, (held.alive t).mpr List.mem_cons_self]
    · rw [Function.update_of_ne same]

theorem Held.push (held : Held s t ps frames) {c : Nat} (void : Bool)
    {code : Except Error (Option Value) → Code Value Error Answer}
    (dead : (s.promise c).alive = false)
    (fresh : (s.promise t).storage = .make (s.promise t).void)
    (promises : next.promise = Function.update
      (Function.update s.promise t { s.promise t with position := .awaiting c code }) c
      (.make void (.task t) .inside)) :
    Held next c (t :: ps) (⟨(s.promise t).void, code⟩ :: frames) := by
  have outside : c ∉ t :: ps := by
    intro member
    exact absurd (dead.symm.trans ((held.alive c).mpr member)) nofun
  have others : ∀ x, x ≠ c → x ≠ t → next.promise x = s.promise x := by
    intro x notChild notParent
    rw [promises, Function.update_of_ne notChild, Function.update_of_ne notParent]
  have child : next.promise c = .make void (.task t) .inside := by
    rw [promises, Function.update_self]
  have parent : next.promise t = { s.promise t with position := .awaiting c code } := by
    have different : t ≠ c := fun same => outside (same ▸ List.mem_cons_self)
    rw [promises, Function.update_of_ne different, Function.update_self]
  refine ⟨?_, List.nodup_cons.mpr ⟨outside, held.distinct⟩, ?_⟩
  · have outer : Awaited next t ps frames := by
      apply held.awaited.congr
      · intro x member
        apply others x
        · intro same
          exact outside (same ▸ List.mem_cons_of_mem t member)
        · exact held.not_awaiting member
      · rw [parent]
    have link := @Awaited.frame _ _ _ next c t ps frames code (by rw [child]; rfl)
      (by rw [parent]) (by rw [parent]; exact fresh) outer
    rw [parent] at link
    exact link
  · intro x
    by_cases mine : x = c
    · rw [mine, child]
      exact iff_of_true rfl List.mem_cons_self
    · rw [List.mem_cons, ← held.alive x]
      by_cases parents : x = t
      · rw [parents, parent]
        exact ⟨Or.inr, fun either => either.resolve_left fun same => mine (parents.trans same)⟩
      · rw [others x mine parents]
        exact ⟨Or.inr, fun either => either.resolve_left mine⟩

/-- The innermost task is destroyed, and the one that awaited it goes on. -/
theorem Held.pop {p : Nat} (held : Held s t (p :: ps) frames) {rest : List
      (Frame Bool Value (Option Value) Error Answer)} (outer : Awaited s p ps rest)
    (promises : next.promise = Function.update
      (Function.update s.promise p { s.promise p with position := .inside }) t
      { s.promise t with alive := false }) :
    Held next p ps rest := by
  have inner := held.not_awaiting List.mem_cons_self
  have distinct := (List.nodup_cons.mp held.distinct).2
  have own : next.promise p = { s.promise p with position := .inside } := by
    rw [promises, Function.update_of_ne inner, Function.update_self]
  have others : ∀ x, x ≠ t → x ≠ p → next.promise x = s.promise x := by
    intro x notInner notOuter
    rw [promises, Function.update_of_ne notInner, Function.update_of_ne notOuter]
  refine ⟨?_, distinct, ?_⟩
  · apply outer.congr
    · intro x member
      apply others x (held.not_awaiting (List.mem_cons_of_mem p member))
      intro same
      subst same
      exact (List.nodup_cons.mp distinct).1 member
    · rw [own]
  · intro x
    by_cases mine : x = t
    · rw [mine, promises, Function.update_self]
      apply iff_of_false nofun
      exact (List.nodup_cons.mp held.distinct).1
    · have before := held.alive x
      rw [List.mem_cons] at before
      by_cases parents : x = p
      · rw [parents, own]
        rw [parents] at before
        exact before.trans ⟨fun either => either.resolve_left inner, .inr⟩
      · rw [others x mine parents]
        exact before.trans ⟨fun either => either.resolve_left mine, .inr⟩

theorem Awaited.waits (awaited : Awaited s t ps frames) {x : Nat} (member : x ∈ ps) :
    ∃ child code, (s.promise x).position = .awaiting child code := by
  induction awaited with
  | first => exact absurd member List.not_mem_nil
  | frame continuation position fresh rest inductionHypothesis =>
      rcases List.mem_cons.mp member with same | later
      · rw [same]
        exact ⟨_, _, position⟩
      · exact inductionHypothesis later

/-- A task alive that does not await is the innermost. -/
theorem Held.innermost (held : Held s t ps frames) {x : Nat}
    (alive : (s.promise x).alive = true)
    (other : ∀ child code, (s.promise x).position ≠ .awaiting child code) : x = t := by
  rcases List.mem_cons.mp ((held.alive x).mp alive) with same | member
  · exact same
  · obtain ⟨child, code, position⟩ := held.awaited.waits member
    exact absurd position (other child code)

end Chains

section Steps

variable {void : Bool} {body : Code Value Error Answer} {s next : State Value Error Answer}
  {event : Event Answer} {trace : List (Event Answer)}
  {todo : Todo Bool Value (Option Value) Error Answer}

theorem new_update {t : Nat} (promise : Promise Value Error Answer)
    (new : ∀ x, s.count ≤ x → (s.promise x).alive = false) (used : (s.promise t).alive = true)
    (x : Nat) (bound : s.count ≤ x) : (Function.update s.promise t promise x).alive = false := by
  have different : x ≠ t := by
    intro same
    subst same
    exact absurd ((new x bound).symm.trans used) nofun
  rw [Function.update_of_ne different]
  exact new x bound

theorem stands_running {t : Nat} {ps : List Nat}
    {frames : List (Frame Bool Value (Option Value) Error Answer)}
    {code : Code Value Error Answer} (held : Held s t ps frames)
    (new : ∀ x, s.count ≤ x → (s.promise x).alive = false)
    (fresh : (s.promise t).storage = .make (s.promise t).void)
    (promises : next.promise =
      Function.update s.promise t { s.promise t with position := .inside })
    (count : next.count = s.count) (control : next.control = .running t code) :
    Stands next (.run (s.promise t).void code frames) := by
  have alive := (held.alive t).mpr List.mem_cons_self
  have own : next.promise t = { s.promise t with position := .inside } := by
    rw [promises, Function.update_self]
  constructor
  · rw [count, promises]
    exact new_update _ new alive
  · rw [control]
    refine ⟨ps, frames, held.update { s.promise t with position := .inside } rfl alive promises,
      ?_, ?_⟩
    · rw [own]
      exact fresh
    · rw [own]

theorem stands_final {t : Nat} {ps : List Nat}
    {frames : List (Frame Bool Value (Option Value) Error Answer)}
    {storage : Storage Value Error} {outcome : Except Error (Option Value)}
    (held : Held s t ps frames) (new : ∀ x, s.count ≤ x → (s.promise x).alive = false)
    (promises : next.promise = Function.update s.promise t { s.promise t with storage := storage })
    (count : next.count = s.count) (control : next.control = .final t)
    (gives : storage.awaitResume = some outcome) (complete : storage.destroyable = true) :
    Stands next (.done outcome frames) := by
  have alive := (held.alive t).mpr List.mem_cons_self
  have own : next.promise t = { s.promise t with storage := storage } := by
    rw [promises, Function.update_self]
  constructor
  · rw [count, promises]
    exact new_update _ new alive
  · rw [control]
    refine ⟨ps, frames, outcome, held.update { s.promise t with storage := storage } rfl alive
      promises, ?_, ?_, rfl⟩
    · rw [own]
      exact gives
    · rw [own]
      exact complete

/-- Every step of the coroutines is one of the stack machine, or leaves it alone. -/
theorem Step.follows (step : Step s event next) (stands : Stands s todo) :
    ∃ after, Follows next event todo after ∧ Stands next after := by
  obtain ⟨new, does⟩ := stands
  cases step with
  | @start t code stopped alive position =>
      rw [stopped] at does
      obtain ⟨leaf, ps, frames, held, fresh, either⟩ := does
      have same : t = leaf := held.innermost alive (by rw [position]; nofun)
      subst same
      rcases either with ⟨first, standing, rfl⟩ | ⟨later, standing, _⟩
      · cases position.symm.trans standing
        exact ⟨_, .start _, stands_running held new fresh rfl rfl rfl⟩
      · cases position.symm.trans standing
  | @answer t code answer stopped alive position =>
      rw [stopped] at does
      obtain ⟨leaf, ps, frames, held, fresh, either⟩ := does
      have same : t = leaf := held.innermost alive (by rw [position]; nofun)
      subst same
      rcases either with ⟨first, standing, _⟩ | ⟨later, standing, rfl⟩
      · cases position.symm.trans standing
      · cases position.symm.trans standing
        exact ⟨_, .answer _ code frames answer, stands_running held new fresh rfl rfl rfl⟩
  | @await t kind child code running =>
      rw [running] at does
      obtain ⟨ps, frames, held, fresh, rfl⟩ := does
      have alive := (held.alive t).mpr List.mem_cons_self
      have dead := new s.count (Nat.le_refl _)
      refine ⟨_, .move (.await _ kind child code frames), ?_, t :: ps, _,
        held.push kind dead fresh rfl, ?_, ?_⟩
      · intro x bound
        have different : x ≠ s.count := Nat.ne_of_gt bound
        simp only [State.set, Function.update_of_ne different]
        exact new_update _ new alive x (Nat.le_of_succ_le bound)
      · simp [State.set, Promise.make]
      · simp only [State.set, Function.update_self, Promise.make]
  | @drop t kind child code running =>
      rw [running] at does
      obtain ⟨ps, frames, held, fresh, rfl⟩ := does
      have alive := (held.alive t).mpr List.mem_cons_self
      have dead := new s.count (Nat.le_refl _)
      have outside : s.count ∉ t :: ps := by
        intro member
        exact absurd (dead.symm.trans ((held.alive s.count).mpr member)) nofun
      have different : t ≠ s.count := fun same => outside (same ▸ List.mem_cons_self)
      refine ⟨_, .drop kind (.drop _ kind child code frames), ?_, ps, frames,
        ⟨?_, held.distinct, ?_⟩, ?_, ?_⟩
      · intro x bound
        have other : x ≠ s.count := Nat.ne_of_gt bound
        simp only [State.destroy, State.set, Function.update_of_ne other]
        exact new x (Nat.le_of_succ_le bound)
      · apply held.awaited.congr
        · intro x member
          have other : x ≠ s.count := by
            intro same
            exact outside (same ▸ List.mem_cons_of_mem t member)
          simp [State.destroy, State.set, Function.update_of_ne other]
        · simp [State.destroy, State.set, Function.update_of_ne different]
      · intro x
        by_cases same : x = s.count
        · subst same
          simp only [State.destroy, State.set, Function.update_self]
          exact iff_of_false nofun outside
        · simp only [State.destroy, State.set, Function.update_of_ne same]
          exact held.alive x
      · simp only [State.destroy, State.set, Function.update_of_ne different]
        exact fresh
      · simp only [State.destroy, State.set, Function.update_of_ne different]
  | @suspend t code running =>
      rw [running] at does
      obtain ⟨ps, frames, held, fresh, rfl⟩ := does
      have alive := (held.alive t).mpr List.mem_cons_self
      refine ⟨_, .rest _ (.inl rfl), new_update _ new alive, t, ps, frames,
        held.update { s.promise t with position := .suspended code } rfl alive rfl, ?_, .inr ?_⟩
      · simp only [State.set, Function.update_self]
        exact fresh
      · simp only [State.set, Function.update_self]
        exact ⟨code, rfl, rfl⟩
  | @ret t value running =>
      rw [running] at does
      obtain ⟨ps, frames, held, fresh, rfl⟩ := does
      have gives : ((s.promise t).storage.returnValue value).awaitResume =
          some (.ok (payload (s.promise t).void value)) := by
        rw [fresh]
        exact awaitResume_value _ value
      have complete : ((s.promise t).storage.returnValue value).destroyable = true := by
        rw [fresh]
        exact destroyable_value _ value
      exact ⟨_, .move (.ret _ value frames), stands_final held new rfl rfl rfl gives complete⟩
  | @throw t error running =>
      rw [running] at does
      obtain ⟨ps, frames, held, fresh, rfl⟩ := does
      have gives : ((s.promise t).storage.setException error).awaitResume =
          some (.error error) := by
        rw [fresh]
        exact awaitResume_error _ error
      have complete : ((s.promise t).storage.setException error).destroyable = true := by
        rw [fresh]
        exact destroyable_error _ error
      exact ⟨_, .move (.throw _ error frames), stands_final held new rfl rfl rfl gives complete⟩
  | @resume t p code outcome final continuation position result =>
      rw [final] at does
      obtain ⟨ps, frames, given, held, gives, complete, rfl⟩ := does
      cases result.symm.trans gives
      cases held.awaited with
      | first spawned => exact absurd (continuation.symm.trans spawned) nofun
      | frame task waits fresh rest =>
          cases continuation.symm.trans task
          cases position.symm.trans waits
          have different : t ≠ p := (held.not_awaiting List.mem_cons_self).symm
          have alive : (s.promise p).alive = true :=
            (held.alive p).mpr (List.mem_cons_of_mem t List.mem_cons_self)
          refine ⟨_, .move (.goesOn outcome ⟨_, code⟩ _), ?_, _, _, held.pop rest ?_, ?_, ?_⟩
          · intro x bound
            have inner := (held.alive t).mpr List.mem_cons_self
            have other : x ≠ t := by
              intro same
              have dead := new x bound
              rw [same, inner] at dead
              exact absurd dead nofun
            simp only [State.destroy, State.set, Function.update_of_ne other]
            exact new_update _ new alive x bound
          · simp [State.destroy, State.set, Function.update_of_ne different]
          · simp [State.destroy, State.set, Function.update_of_ne different.symm, fresh]
          · simp only [State.destroy, State.set, Function.update_of_ne different.symm,
              Function.update_self]
  | @corrupt t p final continuation nothing =>
      rw [final] at does
      obtain ⟨ps, frames, given, held, gives, complete, _⟩ := does
      exact absurd (nothing.symm.trans gives) nofun
  | @finish t final continuation =>
      rw [final] at does
      obtain ⟨ps, frames, given, held, gives, complete, rfl⟩ := does
      cases held.awaited with
      | frame task waits fresh rest => exact absurd (continuation.symm.trans task) nofun
      | first spawned =>
          have gone : ∀ x, (Function.update s.promise t
              { s.promise t with alive := false } x).alive = false := by
            intro x
            by_cases same : x = t
            · rw [same, Function.update_self]
            · rw [Function.update_of_ne same]
              have alone := (held.alive x).not.mpr (by simp [same])
              simpa using alone
          exact ⟨_, .rest _ (.inr rfl), fun x _ => gone x, gone, given, gives, rfl⟩

theorem Step.answers (step : Step s event next) {todo after : Todo Bool Value (Option Value) Error
      Answer} (follows : Follows next event todo after) (more : List Answer)
    (means : ∀ more, body.eval payload void (s.answers ++ more) = todo.meaning payload more) :
    body.eval payload void (next.answers ++ more) = after.meaning payload more := by
  cases follows with
  | start => cases step with | start => exact means more
  | answer kind code frames answer =>
      cases step with
      | answer =>
          show body.eval payload void (s.answers ++ [answer] ++ more) = _
          rw [List.append_assoc]
          exact means (answer :: more)
  | rest todo idle => cases step <;> exact means more
  | move moved =>
      rw [moved.meaning]
      cases step <;> exact means more
  | drop kind moved =>
      rw [moved.meaning]
      cases step
      exact means more

/-- A step reads and destroys a storage that is not ready only when it drops a task with a
value. -/
theorem Step.unreachable (step : Step s event next) (stands : Stands s todo) :
    next.unreachable = true ↔ s.unreachable = true ∨ event = .drop false := by
  have does := stands.does
  cases step with
  | @drop t kind child code running =>
      simp only [State.destroy, State.set, Function.update_self, Promise.make]
      rw [destroyable_make]
      cases kind <;> simp
  | @resume t p code outcome final continuation position result =>
      rw [final] at does
      obtain ⟨ps, frames, given, held, gives, complete, _⟩ := does
      have different : t ≠ p := by
        intro same
        subst same
        cases held.awaited with
        | first spawned => exact absurd (continuation.symm.trans spawned) nofun
        | frame task waits fresh rest =>
            cases continuation.symm.trans task
            exact held.not_awaiting List.mem_cons_self rfl
      simp [State.destroy, State.set, Function.update_of_ne different, complete]
  | @corrupt t p final continuation nothing =>
      rw [final] at does
      obtain ⟨ps, frames, given, held, gives, complete, _⟩ := does
      exact absurd (nothing.symm.trans gives) nofun
  | @finish t final continuation =>
      rw [final] at does
      obtain ⟨ps, frames, given, held, gives, complete, _⟩ := does
      simp [State.destroy, State.set, complete]
  | _ => simp [State.set]

/-- A coroutine of the task runs. -/
def State.Busy (s : State Value Error Answer) : Prop :=
  (∃ t code, s.control = .running t code) ∨ ∃ t, s.control = .final t

/-- While a coroutine runs, something happens next. -/
theorem Stands.goesOn (stands : Stands s todo) (busy : s.Busy) :
    ∃ event next, Step s event next := by
  have does := stands.does
  rcases busy with ⟨t, code, running⟩ | ⟨t, final⟩
  · cases code with
    | ret value => exact ⟨_, _, .ret running⟩
    | throw error => exact ⟨_, _, .throw running⟩
    | await kind child next => exact ⟨_, _, .await running⟩
    | drop kind child next => exact ⟨_, _, .drop running⟩
    | suspend next => exact ⟨_, _, .suspend running⟩
  · rw [final] at does
    obtain ⟨ps, frames, given, held, gives, complete, _⟩ := does
    cases held.awaited with
    | first spawned => exact ⟨_, _, .finish final spawned⟩
    | frame task waits fresh rest => exact ⟨_, _, .resume final task waits gives⟩

/-- A step while a coroutine runs. -/
def Works (s next : State Value Error Answer) : Prop := s.Busy ∧ ∃ event, Step s event next

theorem not_busy (idle : s.control = .stopped ∨ s.control = .returned) : ¬ s.Busy := by
  intro busy
  rcases idle with idle | idle <;> rcases busy with ⟨t, code, running⟩ | ⟨t, final⟩
  · exact absurd (idle.symm.trans running) nofun
  · exact absurd (idle.symm.trans final) nofun
  · exact absurd (idle.symm.trans running) nofun
  · exact absurd (idle.symm.trans final) nofun

/-- A running coroutine neither starts nor gets an answer. -/
theorem Follows.moves {after : Todo Bool Value (Option Value) Error Answer}
    (follows : Follows next event todo after) (step : Step s event next) (busy : s.Busy) :
    ¬ next.Busy ∨ Todo.Next payload todo after := by
  cases follows with
  | start => cases step with | start stopped => exact absurd busy (not_busy (.inl stopped))
  | answer kind code frames answer =>
      cases step with | answer _ stopped => exact absurd busy (not_busy (.inl stopped))
  | rest todo idle => exact .inl (not_busy idle)
  | move moved => exact .inr moved
  | drop kind moved => exact .inr moved

/-- Every coroutine that is resumed suspends or returns after finitely many steps. -/
theorem Stands.ends (stands : Stands s todo) : Acc (fun after before => Works before after) s := by
  have ends : Todo.Ends payload todo := todo.ends
  induction ends generalizing s with
  | intro todo _ inductionHypothesis =>
      constructor
      intro next works
      obtain ⟨busy, event, step⟩ := works
      obtain ⟨after, follows, stood⟩ := Step.follows step stands
      rcases follows.moves step busy with idle | moved
      · constructor
        intro later again
        exact absurd again.1 idle
      · exact inductionHypothesis after moved stood

end Steps

/-! ### Results -/

end NgrCore.TaskResult