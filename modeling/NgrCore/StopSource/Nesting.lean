import NgrCore.StopSource.Progress

/-!
Owns the threads over any number of `__stop_source`s: a callback runs calls of its own on
the thread that executes it, on its own source or on another one. The calls of a thread
are a stack, of which every one below the innermost executes a callback.
-/

namespace NgrCore.StopSource.Nesting

open Library

abbrev Thread := Nat

/-- A call on the stack of a thread: its source, and its number there. -/
structure Frame where
  source : Nat
  call : Nat
deriving Repr, DecidableEq

/-- Any number of sources, and the calls that each thread is in, innermost first. -/
structure Machine where
  sources : Nat → State Nat := fun _ => {}
  stack : Thread → List Frame := fun _ => []

inductive Event
  | begin (t : Thread) (frame : Frame) (call : Call)
  | move (t : Thread)
  | leave (t : Thread)
deriving Repr, DecidableEq

namespace Machine

def call (m : Machine) (frame : Frame) : Call := (m.sources frame.source).calls frame.call

/-- The thread runs code of the program: no call of its own, or the body of a callback. -/
def Free (m : Machine) (t : Thread) : Prop :=
  ∀ top rest, m.stack t = top :: rest → ∃ cb, (m.call top).Executes cb

/-- One step of a call on its source. -/
def advance (m : Machine) (frame : Frame) (after : Source Nat) (call : Call) : Machine :=
  { m with
    sources := Function.update m.sources frame.source
      ⟨after, Function.update (m.sources frame.source).calls frame.call call⟩ }

end Machine

/-- A thread begins a call, moves in its innermost call, which may be to end the body of
the callback that this call executes, or leaves a call that has returned. -/
inductive Step (m : Machine) : Event → Machine → Prop
  | begin (t : Thread) (frame : Frame) {after : Source Nat} {call : Call} :
      m.Free t → m.call frame = .idle →
      Begins (m.sources frame.source) frame.call after call →
      Step m (.begin t frame call)
        { m.advance frame after call with
          stack := Function.update m.stack t (frame :: m.stack t) }
  | move (t : Thread) {frame : Frame} {rest : List Frame} {after : Source Nat} {call : Call} :
      m.stack t = frame :: rest →
      Move (m.sources frame.source).source frame.call (m.call frame) after call →
      Step m (.move t) (m.advance frame after call)
  | leave (t : Thread) {frame : Frame} {rest : List Frame} :
      m.stack t = frame :: rest → (m.call frame).isReturned = true →
      Step m (.leave t) { m with stack := Function.update m.stack t rest }

/-- Sources without callbacks, and threads that are in no call. -/
def system : System Machine Event where
  Init m := m = {}
  Step := Step

/-- The calls of a thread are its own, and every one below the innermost executes a
callback. -/
structure Stacked (m : Machine) : Prop where
  sources : ∀ k, (StopSource.system Nat).Reachable (m.sources k)
  begun : ∀ t, ∀ frame ∈ m.stack t, m.call frame ≠ .idle
  nodup : ∀ t, (m.stack t).Nodup
  apart : ∀ t u frame, frame ∈ m.stack t → frame ∈ m.stack u → t = u
  present : ∀ frame, m.call frame ≠ .idle → (m.call frame).isReturned = false →
    ∃ t, frame ∈ m.stack t
  below : ∀ t top rest, m.stack t = top :: rest → ∀ frame ∈ rest,
    ∃ cb, (m.call frame).Executes cb

section Runs

variable {m next : Machine} {t : Thread} {frame other : Frame} {rest : List Frame}
  {after : Source Nat} {call : Call}

theorem advance_self : (m.advance frame after call).sources frame.source =
    ⟨after, Function.update (m.sources frame.source).calls frame.call call⟩ :=
  Function.update_self _ _ _

theorem advance_other {k : Nat} (apart : k ≠ frame.source) :
    (m.advance frame after call).sources k = m.sources k :=
  Function.update_of_ne apart _ _

theorem call_advance : (m.advance frame after call).call frame = call := by
  unfold Machine.call
  rw [advance_self]
  exact Function.update_self _ _ _

theorem call_other (apart : other ≠ frame) :
    (m.advance frame after call).call other = m.call other := by
  unfold Machine.call
  by_cases same : other.source = frame.source
  · have apart : other.call ≠ frame.call := fun equal => apart (by
      cases other
      cases frame
      exact congr (congrArg _ same) equal)
    rw [same, advance_self]
    exact Function.update_of_ne apart _ _
  · rw [advance_other same]

theorem advance_advance {source : Source Nat} {before : Call} :
    (m.advance frame source before).advance frame after call = m.advance frame after call := by
  simp [Machine.advance]

theorem sources_advance (reachable : ∀ k, (StopSource.system Nat).Reachable (m.sources k))
    (step : StopSource.Step (m.sources frame.source) frame.call
      ⟨after, Function.update (m.sources frame.source).calls frame.call call⟩) (k : Nat) :
    (StopSource.system Nat).Reachable ((m.advance frame after call).sources k) := by
  by_cases same : k = frame.source
  · rw [same, advance_self]
    exact (reachable frame.source).step step
  · rw [advance_other same]
    exact reachable k

theorem Begins.ne_idle {s : State Nat} {i : Nat} (begins : Begins s i after call) :
    call ≠ .idle := by
  cases begins <;> exact nofun

theorem Move.ne_idle {source : Source Nat} {i : Nat} {before : Call}
    (move : Move source i before after call) : call ≠ .idle := by
  cases move <;> exact nofun

theorem Stacked.begin (stacked : Stacked m) (free : m.Free t) (idle : m.call frame = .idle)
    (begins : Begins (m.sources frame.source) frame.call after call) :
    Stacked { m.advance frame after call with
      stack := Function.update m.stack t (frame :: m.stack t) } := by
  have absent : ∀ u, frame ∉ m.stack u := fun u member => stacked.begun u frame member idle
  have others : ∀ other u, other ∈ m.stack u →
      (m.advance frame after call).call other = m.call other :=
    fun other u member => call_other fun same => absent u (same ▸ member)
  have members : ∀ {u other},
      other ∈ Function.update m.stack t (frame :: m.stack t) u →
      (u = t ∧ other = frame) ∨ other ∈ m.stack u := by
    intro u other member
    by_cases same : u = t
    · subst same
      rw [Function.update_self] at member
      rcases List.mem_cons.mp member with first | old
      · exact .inl ⟨rfl, first⟩
      · exact .inr old
    · rw [Function.update_of_ne same] at member
      exact .inr member
  constructor
  · exact sources_advance stacked.sources (.begin idle begins)
  · intro u other member
    rcases members member with ⟨_, rfl⟩ | old
    · change (m.advance other after call).call other ≠ .idle
      rw [call_advance]
      exact Begins.ne_idle begins
    · change (m.advance frame after call).call other ≠ .idle
      rw [others other u old]
      exact stacked.begun u other old
  · intro u
    change (Function.update m.stack t (frame :: m.stack t) u).Nodup
    rw [Function.update_apply]
    split
    · exact List.nodup_cons.mpr ⟨absent t, stacked.nodup t⟩
    · exact stacked.nodup u
  · intro u v other first second
    rcases members first with ⟨rfl, rfl⟩ | old <;> rcases members second with ⟨rfl, _⟩ | new
    · rfl
    · exact absurd new (absent v)
    · rename_i same
      exact absurd (same ▸ old) (absent u)
    · exact stacked.apart u v other old new
  · intro other busy inside
    by_cases same : other = frame
    · refine ⟨t, ?_⟩
      change other ∈ Function.update m.stack t (frame :: m.stack t) t
      rw [Function.update_self, same]
      exact List.mem_cons_self
    · have unchanged : (m.advance frame after call).call other = m.call other :=
        call_other same
      change (m.advance frame after call).call other ≠ .idle at busy
      change ((m.advance frame after call).call other).isReturned = false at inside
      rw [unchanged] at busy inside
      obtain ⟨u, member⟩ := stacked.present other busy inside
      refine ⟨u, ?_⟩
      change other ∈ Function.update m.stack t (frame :: m.stack t) u
      rw [Function.update_apply]
      split
      · rename_i equal
        exact List.mem_cons_of_mem _ (equal ▸ member)
      · exact member
  · intro u top rest stack other member
    change ∃ cb, ((m.advance frame after call).call other).Executes cb
    change Function.update m.stack t (frame :: m.stack t) u = top :: rest at stack
    by_cases same : u = t
    · subst same
      rw [Function.update_self] at stack
      obtain ⟨rfl, rfl⟩ := List.cons.inj stack
      rw [others other u member]
      cases known : m.stack u with
      | nil => exact absurd (known ▸ member) List.not_mem_nil
      | cons inner outer =>
          rw [known] at member
          rcases List.mem_cons.mp member with rfl | deeper
          · exact free other outer known
          · exact stacked.below u inner outer known other deeper
    · rw [Function.update_of_ne same] at stack
      have held : other ∈ m.stack u := stack ▸ List.mem_cons_of_mem _ member
      rw [others other u held]
      exact stacked.below u top rest stack other member

theorem Stacked.move (stacked : Stacked m) (stack : m.stack t = frame :: rest)
    (move : Move (m.sources frame.source).source frame.call (m.call frame) after call) :
    Stacked (m.advance frame after call) := by
  have mine : frame ∈ m.stack t := stack ▸ List.mem_cons_self
  constructor
  · exact sources_advance stacked.sources (.move move)
  · intro u other member
    by_cases same : other = frame
    · rw [same, call_advance]
      exact Move.ne_idle move
    · rw [call_other same]
      exact stacked.begun u other member
  · exact stacked.nodup
  · exact stacked.apart
  · intro other busy inside
    by_cases same : other = frame
    · exact ⟨t, same ▸ mine⟩
    · rw [call_other same] at busy inside
      exact stacked.present other busy inside
  · intro u top deeper known other member
    have different : other ≠ frame := by
      rintro rfl
      have held : other ∈ m.stack u := known ▸ List.mem_cons_of_mem _ member
      obtain rfl := stacked.apart u t other held mine
      have unique := stacked.nodup u
      obtain ⟨rfl, rfl⟩ := List.cons.inj (known.symm.trans stack)
      rw [stack] at unique
      exact (List.nodup_cons.mp unique).1 member
    rw [call_other different]
    exact stacked.below u top deeper known other member

theorem Stacked.leave (stacked : Stacked m) (stack : m.stack t = frame :: rest)
    (returned : (m.call frame).isReturned = true) :
    Stacked { m with stack := Function.update m.stack t rest } := by
  have members : ∀ {u other}, other ∈ Function.update m.stack t rest u → other ∈ m.stack u := by
    intro u other member
    by_cases same : u = t
    · rw [same, Function.update_self] at member
      exact same ▸ stack ▸ List.mem_cons_of_mem _ member
    · rwa [Function.update_of_ne same] at member
  constructor
  · exact stacked.sources
  · exact fun u other member => stacked.begun u other (members member)
  · intro u
    change (Function.update m.stack t rest u).Nodup
    rw [Function.update_apply]
    split
    · exact (List.nodup_cons.mp (stack ▸ stacked.nodup t)).2
    · exact stacked.nodup u
  · exact fun u v other first second => stacked.apart u v other (members first) (members second)
  · intro other busy inside
    obtain ⟨u, member⟩ := stacked.present other busy inside
    refine ⟨u, ?_⟩
    change other ∈ Function.update m.stack t rest u
    by_cases same : u = t
    · rw [same, stack] at member
      rw [same, Function.update_self]
      rcases List.mem_cons.mp member with rfl | deeper
      · exact absurd (inside.symm.trans returned) nofun
      · exact deeper
    · rwa [Function.update_of_ne same]
  · intro u top deeper known other member
    change Function.update m.stack t rest u = top :: deeper at known
    by_cases same : u = t
    · subst same
      rw [Function.update_self] at known
      refine stacked.below u frame rest stack other ?_
      exact known ▸ List.mem_cons_of_mem _ member
    · rw [Function.update_of_ne same] at known
      exact stacked.below u top deeper known other member

/-- What a thread begins to remove was registered, so no registration executes it. -/
theorem Stacked.not_inside (stacked : Stacked m) {cb : Callback} {pc : RemovePc}
    (removes : m.call frame = .remove cb pc) {i : Nat} :
    m.call ⟨frame.source, i⟩ ≠ .register cb .executing := by
  intro executing
  have inv := inv_of_reachable (stacked.sources frame.source)
  have removing : CallOk (m.sources frame.source).source frame.call (m.call frame) :=
    inv.calls frame.call
  have inside : CallOk (m.sources frame.source).source i (m.call ⟨frame.source, i⟩) :=
    inv.calls i
  rw [removes] at removing
  rw [executing] at inside
  have inside : (m.sources frame.source).source.stage cb = .ranInside i := inside
  have linked := removing.2.1
  rw [inside] at linked
  exact linked

/-- Only the innermost call of a thread removes a callback. -/
theorem Stacked.top_of_remove (stacked : Stacked m) {cb : Callback} {pc : RemovePc}
    (member : frame ∈ m.stack t) (removes : m.call frame = .remove cb pc) :
    ∃ rest, m.stack t = frame :: rest := by
  cases stack : m.stack t with
  | nil => exact absurd (stack ▸ member) List.not_mem_nil
  | cons top rest =>
      rw [stack] at member
      rcases List.mem_cons.mp member with rfl | deeper
      · exact ⟨rest, rfl⟩
      · obtain ⟨other, executes⟩ := stacked.below t top rest stack frame deeper
        rw [removes] at executes
        exact executes.elim nofun nofun

theorem Stacked.top_of_holder (stacked : Stacked m) {k i : Nat}
    (holder : (m.sources k).source.holder = some i) :
    ∃ t rest, m.stack t = ⟨k, i⟩ :: rest := by
  have holds : (m.call ⟨k, i⟩).holds = true :=
    ((inv_of_reachable (stacked.sources k)).holder i).mpr holder
  have begun : m.call ⟨k, i⟩ ≠ .idle := fun idle => absurd (idle ▸ holds) nofun
  obtain ⟨t, member⟩ := stacked.present _ begun (Call.inside_of_holds holds).1
  cases stack : m.stack t with
  | nil => exact absurd (stack ▸ member) List.not_mem_nil
  | cons top rest =>
      rw [stack] at member
      rcases List.mem_cons.mp member with same | deeper
      · exact ⟨t, rest, same ▸ stack⟩
      · obtain ⟨cb, executes⟩ := stacked.below t top rest stack _ deeper
        exact absurd (holds.symm.trans executes.not_holds) nofun

/-- A request that has returned has executed every callback that was there and not removed. -/
theorem Stacked.reached (stacked : Stacked m)
    (returned : m.call frame = .requestStop (.returned false)) :
    ∀ cb ∈ (m.sources frame.source).source.atStop,
      (m.sources frame.source).source.stage cb ≠ .removed →
      (cb, frame.call) ∈ (m.sources frame.source).source.executed := by
  intro cb before kept
  have source := inv_of_reachable (stacked.sources frame.source)
  obtain ⟨ran, _⟩ := source.drained returned before kept
  have executed := source.executed cb
  rw [ran] at executed
  have member : (cb, frame.call) ∈ (m.sources frame.source).source.executed.filter
      fun e => e.1 = cb := executed ▸ List.mem_singleton_self _
  exact (List.mem_filter.mp member).1

theorem Stacked.step (stacked : Stacked m) {event : Event} (step : Step m event next) :
    Stacked next := by
  cases step with
  | begin t frame free idle begins => exact stacked.begin free idle begins
  | move t stack move => exact stacked.move stack move
  | leave t stack returned => exact stacked.leave stack returned

theorem stacked_init : Stacked {} where
  sources _ := .init rfl
  begun _ _ member := absurd member List.not_mem_nil
  nodup _ := List.nodup_nil
  apart _ _ _ member := absurd member List.not_mem_nil
  present _ busy := absurd rfl busy
  below _ _ _ stack := absurd stack nofun

end Runs

end NgrCore.StopSource.Nesting
