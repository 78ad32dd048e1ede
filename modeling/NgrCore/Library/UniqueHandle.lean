import NgrCore.Library.Places
import NgrCore.Library.Transition
import Mathlib.Logic.Function.Basic

/-!
Owns classes whose objects hold at most one handle of the outside world: they release it when
they are destroyed or assigned to, and an object that is moved from is left empty.

Whatever a program does with such objects, every open handle is held by exactly one of them,
and none is released twice.
-/

namespace NgrCore.Library

universe u v w

variable {Name : Type u} {Value : Type v} {Handle : Type w}

/-- The handle of an object, and what is left of an object that is moved from. -/
structure HandleClass (Value : Type v) (Handle : Type w) where
  handle : Value → Option Handle
  cleared : Value → Value
  handle_cleared : ∀ value, handle (cleared value) = none

/-- The objects that are alive, the handles that are open, those that have been released, and
those whose release found them not open. -/
structure Objects (Name : Type u) (Value : Type v) (Handle : Type w) where
  value : Name → Option Value := fun _ => none
  opened : List Handle := []
  released : List Handle := []
  faults : List Handle := []

/-- What a program does with an object. A handle that an object is constructed with has just
been opened for it. -/
inductive Operation (Name : Type u) (Value : Type v)
  | construct (name : Name) (value : Value)
  | moveConstruct (name other : Name)
  | moveAssign (name other : Name)
  | destroy (name : Name)
deriving Repr, DecidableEq

namespace HandleClass

section Definitions

variable [DecidableEq Name] [DecidableEq Handle] (cls : HandleClass Value Handle)

/-- The handle of a value is released, if it has one. -/
def release (objects : Objects Name Value Handle) (value : Value) : Objects Name Value Handle :=
  match cls.handle value with
  | none => objects
  | some handle =>
      if handle ∈ objects.opened then
        { objects with
          opened := objects.opened.erase handle
          released := handle :: objects.released }
      else { objects with faults := handle :: objects.faults }

/-- An object takes the value of another, which is cleared. -/
def exchange (objects : Objects Name Value Handle) (name other : Name) (value : Value) :
    Objects Name Value Handle :=
  { objects with
    value := Function.update (Function.update objects.value other (some (cls.cleared value)))
      name (some value) }

/-- The effect of an operation. Assigning an object to itself does nothing. -/
def execute (objects : Objects Name Value Handle) :
    Operation Name Value → Objects Name Value Handle
  | .construct name value =>
      { objects with
        value := Function.update objects.value name (some value)
        opened := (cls.handle value).toList ++ objects.opened }
  | .moveConstruct name other =>
      match objects.value other with
      | none => objects
      | some value => cls.exchange objects name other value
  | .moveAssign name other =>
      match objects.value name, objects.value other with
      | some old, some value =>
          if name = other then objects
          else cls.exchange (cls.release objects old) name other value
      | _, _ => objects
  | .destroy name =>
      match objects.value name with
      | none => objects
      | some value =>
          { cls.release objects value with value := Function.update objects.value name none }

/-- An operation on objects that are there, with a handle that is new. -/
def Admissible (objects : Objects Name Value Handle) : Operation Name Value → Prop
  | .construct name value =>
      objects.value name = none ∧ ∀ handle, cls.handle value = some handle → handle ∉ objects.opened
  | .moveConstruct name other => objects.value name = none ∧ objects.value other ≠ none
  | .moveAssign name other => objects.value name ≠ none ∧ objects.value other ≠ none
  | .destroy name => objects.value name ≠ none

/-- The programs with any number of objects of the class. -/
def system : System (Objects Name Value Handle) (Operation Name Value) where
  Init objects := objects = {}
  Step objects operation next :=
    cls.Admissible objects operation ∧ next = cls.execute objects operation

omit [DecidableEq Name] [DecidableEq Handle] in
/-- The handle that an operation gives to an object for the first time. -/
def brings : Operation Name Value → List Handle
  | .construct _ value => (cls.handle value).toList
  | .moveConstruct _ _ | .moveAssign _ _ | .destroy _ => []

omit [DecidableEq Name] [DecidableEq Handle] in
/-- The handle of an object that is alive. -/
def held (objects : Objects Name Value Handle) (name : Name) : List Handle :=
  ((objects.value name).bind cls.handle).toList

/-- The objects of a scope that is left: those that are alive are destroyed, in the order
given. -/
def leave (objects : Objects Name Value Handle) : List Name → Objects Name Value Handle
  | [] => objects
  | name :: rest =>
      match objects.value name with
      | none => leave objects rest
      | some _ => leave (cls.execute objects (.destroy name)) rest

omit [DecidableEq Name] [DecidableEq Handle] in
/-- No object is alive any more, and each of the handles has been released once. -/
structure AllReleased (objects : Objects Name Value Handle) (handles : List Handle) : Prop where
  dead : ∀ name, objects.value name = none
  closed : objects.opened = []
  released : objects.released.Perm handles
  faultless : objects.faults = []

/-- Every open handle is held by exactly one object, and nothing has been released twice. -/
structure Unique (objects : Objects Name Value Handle) : Prop where
  faultless : objects.faults = []
  distinct : objects.opened.Nodup
  placed : Placed (fun handle => handle ∈ objects.opened) (cls.held objects)

end Definitions

section Lemmas

variable [DecidableEq Name] [DecidableEq Handle] {cls : HandleClass Value Handle}
  {objects next : Objects Name Value Handle} {name other : Name} {value : Value}

omit [DecidableEq Name] [DecidableEq Handle] in
theorem held_of_value {alive : Option Value} (here : objects.value name = alive) :
    cls.held objects name = (alive.bind cls.handle).toList := by
  rw [held, here]

omit [DecidableEq Name] [DecidableEq Handle] in
theorem held_vacant (vacant : (objects.value name).bind cls.handle = none) :
    cls.held objects name = [] := by
  rw [held, vacant]
  rfl

omit [DecidableEq Handle] in
theorem held_update (cls : HandleClass Value Handle) (objects next : Objects Name Value Handle)
    {alive : Option Value} (changed : next.value = Function.update objects.value name alive) :
    cls.held next name = (alive.bind cls.handle).toList ∧
      ∀ other, other ≠ name → cls.held next other = cls.held objects other := by
  constructor
  · rw [held, changed, Function.update_self]
  · intro other apart
    rw [held, changed, Function.update_of_ne apart, held]

theorem Unique.construct (unique : cls.Unique objects) (dead : objects.value name = none)
    (new : ∀ handle, cls.handle value = some handle → handle ∉ objects.opened) :
    cls.Unique (cls.execute objects (.construct name value)) := by
  have fresh : ∀ handle ∈ (cls.handle value).toList, handle ∉ objects.opened := by
    intro handle member
    exact new handle (Option.mem_toList.mp member)
  have nodup : (cls.handle value).toList.Nodup := by
    cases cls.handle value <;> simp
  have nothing : cls.held objects name = [] := held_vacant (by rw [dead]; rfl)
  obtain ⟨mine, others⟩ := held_update cls objects
    (cls.execute objects (.construct name value)) rfl
  refine ⟨unique.faultless, ?_, ?_⟩
  · refine List.nodup_append.mpr ⟨nodup, unique.distinct, ?_⟩
    intro handle member other also same
    exact fresh handle member (same ▸ also)
  · refine (unique.placed.insert name nodup fresh ?_ others).of_iff fun handle => ?_
    · rw [nothing, List.append_nil]
      exact mine
    · exact or_comm.trans List.mem_append.symm

omit [DecidableEq Name] in
@[simp] theorem release_value (objects : Objects Name Value Handle) (value : Value) :
    (cls.release objects value).value = objects.value := by
  unfold HandleClass.release
  split
  · rfl
  · split
    · rfl
    · rfl

omit [DecidableEq Name] [DecidableEq Handle] in
theorem Unique.isOpen (unique : cls.Unique objects) (alive : objects.value name = some value)
    {handle : Handle} (holds : cls.handle value = some handle) : handle ∈ objects.opened := by
  apply (unique.placed.pool handle).mp
  refine ⟨name, ?_⟩
  rw [held_of_value alive, Option.bind_some, holds]
  exact List.mem_singleton_self handle

/-- The handle of an object is released, and the object has none any more. -/
theorem Unique.release (unique : cls.Unique objects) (alive : objects.value name = some value)
    (after : Option Value) (gone : after.bind cls.handle = none) :
    cls.Unique { cls.release objects value with
      value := Function.update objects.value name after } := by
  cases holds : cls.handle value with
  | none =>
      have unchanged : cls.release objects value = objects := by
        rw [HandleClass.release, holds]
      rw [unchanged]
      obtain ⟨mine, others⟩ := held_update cls objects
        { objects with value := Function.update objects.value name after } rfl
      refine ⟨unique.faultless, unique.distinct, unique.placed.congr fun other => .of_eq ?_⟩
      by_cases same : other = name
      · rw [same, mine, gone, held_of_value alive, Option.bind_some, holds]
      · exact others other same
  | some handle =>
      have isOpen := unique.isOpen alive holds
      have released : cls.release objects value =
          { objects with
            opened := objects.opened.erase handle
            released := handle :: objects.released } := by
        rw [HandleClass.release, holds]
        exact if_pos isOpen
      rw [released]
      obtain ⟨mine, others⟩ := held_update cls objects
        { objects with
          value := Function.update objects.value name after
          opened := objects.opened.erase handle
          released := handle :: objects.released } rfl
      refine ⟨unique.faultless, unique.distinct.erase handle, ?_⟩
      have here : cls.held objects name = handle :: cls.held { objects with
          value := Function.update objects.value name after
          opened := objects.opened.erase handle
          released := handle :: objects.released } name := by
        rw [mine, gone, held_of_value alive, Option.bind_some, holds]
        rfl
      refine (unique.placed.remove here others).of_iff fun x => ?_
      · exact (unique.distinct.mem_erase_iff.trans and_comm).symm

omit [DecidableEq Handle] in
theorem Unique.exchange (unique : cls.Unique objects) (differ : name ≠ other)
    (vacant : cls.held objects name = []) (alive : objects.value other = some value) :
    cls.Unique (cls.exchange objects name other value) := by
  have elsewhere (place : Name) (notOther : place ≠ other) (notName : place ≠ name) :
      cls.held (cls.exchange objects name other value) place = cls.held objects place := by
    simp only [held, HandleClass.exchange, Function.update_of_ne notName,
      Function.update_of_ne notOther]
  have mine : cls.held (cls.exchange objects name other value) name =
      cls.held objects other := by
    rw [held_of_value alive]
    simp only [held, HandleClass.exchange, Function.update_self]
  have theirs : cls.held (cls.exchange objects name other value) other = [] := by
    apply held_vacant
    simp only [HandleClass.exchange, Function.update_of_ne differ.symm, Function.update_self,
      Option.bind_some, cls.handle_cleared]
  refine ⟨unique.faultless, unique.distinct, ?_⟩
  refine unique.placed.transfer other name differ.symm elsewhere ?_
  rw [mine, theirs, vacant]
  exact List.perm_append_comm

theorem Unique.execute (unique : cls.Unique objects) {operation : Operation Name Value}
    (admissible : cls.Admissible objects operation) :
    cls.Unique (cls.execute objects operation) := by
  cases operation with
  | construct name value => exact unique.construct admissible.1 admissible.2
  | moveConstruct name other =>
      obtain ⟨dead, alive⟩ := admissible
      obtain ⟨value, here⟩ := Option.ne_none_iff_exists'.mp alive
      have differ : name ≠ other := by
        intro same
        rw [← same, dead] at here
        cases here
      simp only [HandleClass.execute, here]
      exact unique.exchange differ (held_vacant (by rw [dead]; rfl)) here
  | moveAssign name other =>
      obtain ⟨old, before⟩ := Option.ne_none_iff_exists'.mp admissible.1
      obtain ⟨value, here⟩ := Option.ne_none_iff_exists'.mp admissible.2
      simp only [HandleClass.execute, before, here]
      by_cases same : name = other
      · rw [if_pos same]
        exact unique
      · rw [if_neg same]
        -- the assignment releases its own handle first, then takes the other
        have emptied := unique.release before (some (cls.cleared old)) (cls.handle_cleared old)
        have vacant : (Function.update objects.value name (some (cls.cleared old)) name).bind
            cls.handle = none := by
          rw [Function.update_self]
          exact cls.handle_cleared old
        have moved := emptied.exchange same (held_vacant vacant)
          ((Function.update_of_ne (Ne.symm same) _ _).trans here)
        have overwritten : cls.exchange (cls.release objects old) name other value =
            cls.exchange { cls.release objects old with
              value := Function.update objects.value name (some (cls.cleared old)) }
              name other value := by
          simp only [HandleClass.exchange, release_value]
          rw [Function.update_comm (β := fun _ => Option Value) same
            (some (cls.cleared old)) (some (cls.cleared value)) objects.value, Function.update_idem]
        rw [overwritten]
        exact moved
  | destroy name =>
      obtain ⟨value, here⟩ := Option.ne_none_iff_exists'.mp admissible
      simp only [HandleClass.execute, here]
      exact unique.release here none rfl

theorem unique_of_reachable (reachable : cls.system.Reachable objects) : cls.Unique objects := by
  induction reachable with
  | init start =>
      cases start
      refine ⟨rfl, List.nodup_nil, ⟨fun _ => List.nodup_nil, ?_, ?_⟩⟩
      · intro _ _ _ here
        cases here
      · intro handle
        simp [held]
  | step _ step inductionHypothesis =>
      obtain ⟨admissible, rfl⟩ := step
      exact inductionHypothesis.execute admissible

omit [DecidableEq Name] in
theorem release_accounts (objects : Objects Name Value Handle) (value : Value) :
    ((cls.release objects value).opened ++ (cls.release objects value).released).Perm
      (objects.opened ++ objects.released) := by
  unfold HandleClass.release
  split
  · exact .refl _
  · next handle _ =>
      split
      · next isOpen =>
          have back := (List.perm_cons_erase isOpen).symm
          exact List.perm_middle.trans (back.append_right objects.released)
      · exact .refl _

/-- A handle that is not open any more has been released. -/
theorem execute_accounts (objects : Objects Name Value Handle) (operation : Operation Name Value) :
    ((cls.execute objects operation).opened ++ (cls.execute objects operation).released).Perm
      (cls.brings operation ++ (objects.opened ++ objects.released)) := by
  cases operation with
  | construct name value =>
      rw [brings, ← List.append_assoc]
      exact .refl _
  | moveConstruct name other =>
      simp only [HandleClass.execute]
      split
      · exact .refl _
      · exact .refl _
  | moveAssign name other =>
      simp only [HandleClass.execute]
      split
      · split
        · exact .refl _
        · exact release_accounts objects _
      · exact .refl _
  | destroy name =>
      simp only [HandleClass.execute]
      split
      · exact .refl _
      · exact release_accounts objects _

theorem destroy_value (objects : Objects Name Value Handle) (name : Name) :
    (cls.execute objects (.destroy name)).value = Function.update objects.value name none := by
  simp only [HandleClass.execute]
  split
  · next dead => exact (Function.update_eq_self_iff.mpr dead.symm).symm
  · rfl

theorem leave_reachable {order : List Name} (reachable : cls.system.Reachable objects) :
    cls.system.Reachable (cls.leave objects order) := by
  induction order generalizing objects with
  | nil => exact reachable
  | cons name rest inductionHypothesis =>
      rw [leave]
      split
      · exact inductionHypothesis reachable
      · next value alive =>
          apply inductionHypothesis
          apply reachable.step
          exact ⟨by rw [Admissible, alive]; nofun, rfl⟩

theorem leave_accounts {order : List Name} :
    ((cls.leave objects order).opened ++ (cls.leave objects order).released).Perm
      (objects.opened ++ objects.released) := by
  induction order generalizing objects with
  | nil => exact .refl _
  | cons name rest inductionHypothesis =>
      rw [leave]
      split
      · exact inductionHypothesis
      · exact inductionHypothesis.trans (execute_accounts objects _)

theorem leave_dead {order : List Name}
    (all : ∀ name, objects.value name ≠ none → name ∈ order) (name : Name) :
    (cls.leave objects order).value name = none := by
  induction order generalizing objects with
  | nil =>
      by_contra alive
      exact List.not_mem_nil (all name alive)
  | cons first rest inductionHypothesis =>
      rw [leave]
      split
      · next dead =>
          apply inductionHypothesis
          intro other alive
          have differ : other ≠ first := fun same => alive (same ▸ dead)
          exact List.mem_of_ne_of_mem differ (all other alive)
      · apply inductionHypothesis
        intro other alive
        rw [destroy_value] at alive
        have differ : other ≠ first := by
          intro same
          rw [same, Function.update_self] at alive
          exact alive rfl
        rw [Function.update_of_ne differ] at alive
        exact List.mem_of_ne_of_mem differ (all other alive)

omit [DecidableEq Name] [DecidableEq Handle] in
theorem Unique.closed (unique : cls.Unique objects)
    (vacant : ∀ name, (objects.value name).bind cls.handle = none) : objects.opened = [] := by
  apply List.eq_nil_iff_forall_not_mem.mpr
  intro handle isOpen
  obtain ⟨name, member⟩ := (unique.placed.pool handle).mpr isOpen
  rw [held_vacant (vacant name)] at member
  cases member

/-- When the scope of all objects is left, every handle has been released once. -/
theorem leave_releases {order : List Name} (reachable : cls.system.Reachable objects)
    (all : ∀ name, objects.value name ≠ none → name ∈ order) :
    AllReleased (cls.leave objects order) (objects.opened ++ objects.released) := by
  have left : cls.system.Reachable (cls.leave objects order) := leave_reachable reachable
  have unique := unique_of_reachable left
  have dead : ∀ name, (cls.leave objects order).value name = none := leave_dead all
  have closed := unique.closed fun name => by rw [dead name]; rfl
  refine ⟨dead, closed, ?_, unique.faultless⟩
  have accounts := @leave_accounts _ _ _ _ _ cls objects order
  rw [closed] at accounts
  exact accounts

omit [DecidableEq Name] [DecidableEq Handle] in
theorem Unique.holder (unique : cls.Unique objects) {handle : Handle}
    (isOpen : handle ∈ objects.opened) : ∃! name, handle ∈ cls.held objects name :=
  unique.placed.existsUnique isOpen

end Lemmas

end HandleClass

end NgrCore.Library
