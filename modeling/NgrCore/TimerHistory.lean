import NgrCore.TimerTask
import Mathlib.Data.List.Induction

/-!
Owns what a history of handled timer tasks amounts to: the timers it leaves
scheduled and the timers it completes. A history is the order in which tasks
were handled and how; it knows nothing of queues, heaps or threads.

Proves how many completions a history guarantees, and which histories complete
no timer twice and leave no completed timer scheduled.
-/

namespace NgrCore

/-- How a timer task was handled: by the loop, with `__stop` false or true, or
by the remote `_M_submit` that rejected it. -/
inductive Handling
  | normal
  | stopping
  | rejected
deriving Repr, DecidableEq

/-- The handled tasks, oldest first. -/
abbrev History := List (Addr × Handling)

section Definitions

variable (timer : Addr → TimerTask)

/-- The scheduled timers after one more task in normal mode. -/
def afterTask (waiting : List Addr) (op : Addr) : List Addr :=
  match timer op with
  | .schedule _ => op :: waiting
  | .stop target => waiting.erase target

/-- The timers that tasks handled in normal mode leave scheduled: scheduled and
not stopped since. -/
def scheduled (tasks : List Addr) : List Addr := tasks.foldl (afterTask timer) []

/-- The tasks handled in normal mode. -/
def normalTasks (history : History) : List Addr :=
  (history.filter fun task => task.2 == .normal).map Prod.fst

/-- The tasks the loop handled. -/
def loopTasks (history : History) : List Addr :=
  (history.filter fun task => task.2 != .rejected).map Prod.fst

/-- Handling the task calls `__complete_`: always, except for a schedule in
normal mode. -/
def completes (task : Addr × Handling) : Bool :=
  task.2 != .normal || !(timer task.1).isSchedule

/-- The timers whose `__complete_` is called. -/
def completions (history : History) : List Addr :=
  (history.filter (completes timer)).map fun task => subject timer task.1

/-- What happens to one timer: whether each task about it is a schedule, and how
it is handled. -/
def story (history : History) (t : Addr) : List (Bool × Handling) :=
  (history.filter fun task => subject timer task.1 == t).map
    fun task => ((timer task.1).isSchedule, task.2)

end Definitions

/-- At most one task is handled, or a schedule and then a stop, both in normal
mode. -/
def StoppedAtMostOnce (story : List (Bool × Handling)) : Prop :=
  story.length ≤ 1 ∨ story = [(true, .normal), (false, .normal)]

section Concat

variable {timer : Addr → TimerTask}

@[simp] theorem scheduled_nil : scheduled timer [] = [] := rfl

@[simp] theorem scheduled_concat (tasks : List Addr) (op : Addr) :
    scheduled timer (tasks ++ [op]) = afterTask timer (scheduled timer tasks) op := by
  unfold scheduled
  rw [List.foldl_append]
  rfl

theorem normalTasks_concat (history : History) (op : Addr) (handling : Handling) :
    normalTasks (history ++ [(op, handling)]) =
      normalTasks history ++ if handling = .normal then [op] else [] := by
  unfold normalTasks
  rw [List.filter_append, List.map_append]
  cases handling <;> rfl

theorem loopTasks_concat (history : History) (op : Addr) (handling : Handling) :
    loopTasks (history ++ [(op, handling)]) =
      loopTasks history ++ if handling = .rejected then [] else [op] := by
  unfold loopTasks
  rw [List.filter_append, List.map_append]
  cases handling <;> rfl

theorem completions_concat (history : History) (task : Addr × Handling) :
    completions timer (history ++ [task]) =
      completions timer history ++
        if completes timer task then [subject timer task.1] else [] := by
  unfold completions
  rw [List.filter_append, List.map_append]
  cases called : completes timer task <;> simp [called]

theorem story_concat (history : History) (task : Addr × Handling) (t : Addr) :
    story timer (history ++ [task]) t =
      story timer history t ++
        if subject timer task.1 = t then [((timer task.1).isSchedule, task.2)] else [] := by
  unfold story
  rw [List.filter_append, List.map_append]
  by_cases about : subject timer task.1 = t
  · simp [about]
  · simp [about]

theorem subject_of_isSchedule {op : Addr} (schedule : (timer op).isSchedule = true) :
    subject timer op = op := by
  unfold subject
  cases command : timer op with
  | schedule key => rfl
  | stop target =>
      rw [command] at schedule
      exact absurd schedule nofun

theorem afterTask_of_isSchedule {op : Addr} (schedule : (timer op).isSchedule = true)
    (waiting : List Addr) : afterTask timer waiting op = op :: waiting := by
  unfold afterTask
  cases command : timer op with
  | schedule key => rfl
  | stop target =>
      rw [command] at schedule
      exact absurd schedule nofun

theorem afterTask_of_stop {op : Addr} (stop : (timer op).isSchedule = false)
    (waiting : List Addr) : afterTask timer waiting op = waiting.erase (subject timer op) := by
  unfold afterTask subject
  cases command : timer op with
  | schedule key =>
      rw [command] at stop
      exact absurd stop nofun
  | stop target => rfl

end Concat

section Promises

variable {timer : Addr → TimerTask}

/-- Every schedule the loop handled is completed, or its timer is still
scheduled. -/
theorem loopTasks_count_le (history : History) {t : Addr}
    (schedule : (timer t).isSchedule = true) :
    (loopTasks history).count t ≤
      (completions timer history).count t +
        (scheduled timer (normalTasks history)).count t := by
  induction history using List.reverseRecOn with
  | nil => exact Nat.zero_le _
  | append_singleton history task inductionHypothesis =>
      rcases task with ⟨op, handling⟩
      rw [loopTasks_concat, completions_concat, normalTasks_concat]
      cases handling with
      | rejected =>
          simp only [if_true, reduceCtorEq, if_false, List.append_nil, List.count_append]
          omega
      | stopping =>
          have called : completes timer (op, .stopping) = true := rfl
          simp only [reduceCtorEq, if_false, called, if_true, List.append_nil,
            List.count_append]
          by_cases same : op = t
          · subst same
            rw [subject_of_isSchedule schedule]
            omega
          · have other : [op].count t = 0 := by simp [same]
            omega
      | normal =>
          simp only [reduceCtorEq, if_false, if_true, scheduled_concat, List.count_append]
          cases command : (timer op).isSchedule with
          | true =>
              have notCalled : completes timer (op, .normal) = false := by
                simp [completes, command]
              rw [notCalled, afterTask_of_isSchedule command]
              simp only [Bool.false_eq_true, if_false, List.count_nil, List.count_cons]
              omega
          | false =>
              have called : completes timer (op, .normal) = true := by
                simp [completes, command]
              have other : op ≠ t := by
                intro same
                subst same
                rw [command] at schedule
                exact absurd schedule nofun
              rw [called, afterTask_of_stop command, List.count_erase]
              simp only [if_true, List.count_singleton, beq_iff_eq, other, if_false]
              by_cases about : subject timer op = t
              · simp only [about, if_true]
                omega
              · simp only [about, if_false]
                omega

/-! ### One timer -/

/-- How often the story calls `__complete_`. -/
def calls (story : List (Bool × Handling)) : Nat :=
  story.countP fun event => event.2 != .normal || !event.1

/-- How often the timer is scheduled after one more event. -/
def afterEvent (level : Nat) : Bool × Handling → Nat
  | (true, .normal) => level + 1
  | (false, .normal) => level - 1
  | _ => level

/-- How often the story leaves its timer scheduled. -/
def level (story : List (Bool × Handling)) : Nat := story.foldl afterEvent 0

theorem completions_count (history : History) (t : Addr) :
    (completions timer history).count t = calls (story timer history t) := by
  induction history using List.reverseRecOn with
  | nil => rfl
  | append_singleton history task inductionHypothesis =>
      unfold calls at inductionHypothesis ⊢
      rw [completions_concat, story_concat, List.count_append, List.countP_append,
        inductionHypothesis]
      apply congrArg
      by_cases about : subject timer task.1 = t
      · rw [if_pos about]
        by_cases called : completes timer task = true
        · have also : (task.2 != .normal || !(timer task.1).isSchedule) = true := called
          simp [called, also, about]
        · have also : (task.2 != .normal || !(timer task.1).isSchedule) = false := by
            simpa [completes] using called
          simp [called, also]
      · rw [if_neg about]
        by_cases called : completes timer task = true
        · simp [called, about]
        · simp [called]

theorem scheduled_count (history : History) (t : Addr) :
    (scheduled timer (normalTasks history)).count t = level (story timer history t) := by
  induction history using List.reverseRecOn with
  | nil => rfl
  | append_singleton history task inductionHypothesis =>
      rcases task with ⟨op, handling⟩
      have after : level (story timer history t ++
          if subject timer op = t then [((timer op).isSchedule, handling)] else []) =
          if subject timer op = t then
            afterEvent (level (story timer history t)) ((timer op).isSchedule, handling)
          else level (story timer history t) := by
        unfold level
        split
        · rw [List.foldl_append]
          rfl
        · rw [List.append_nil]
      rw [normalTasks_concat, story_concat, after, ← inductionHypothesis]
      cases handling with
      | stopping => cases (timer op).isSchedule <;> simp [afterEvent]
      | rejected => cases (timer op).isSchedule <;> simp [afterEvent]
      | normal =>
          rw [if_pos rfl, scheduled_concat]
          cases command : (timer op).isSchedule with
          | true =>
              rw [afterTask_of_isSchedule command, subject_of_isSchedule command]
              by_cases same : op = t
              · simp [same, afterEvent]
              · simp [same]
          | false =>
              rw [afterTask_of_stop command]
              by_cases about : subject timer op = t
              · simp [about, afterEvent]
              · rw [if_neg about, List.count_erase_of_ne (Ne.symm about)]

/-- A schedule is about its own timer. -/
theorem story_schedules_le (history : History) (t : Addr) :
    (story timer history t).countP Prod.fst ≤
      if (timer t).isSchedule then (history.map Prod.fst).count t else 0 := by
  induction history using List.reverseRecOn with
  | nil => exact Nat.zero_le _
  | append_singleton history task inductionHypothesis =>
      rw [story_concat, List.countP_append, List.map_append, List.count_append]
      by_cases own : subject timer task.1 = t ∧ (timer task.1).isSchedule = true
      · rcases own with ⟨about, schedule⟩
        have same : task.1 = t := (subject_of_isSchedule schedule).symm.trans about
        have also : (timer t).isSchedule = true := same ▸ schedule
        have here : (if subject timer task.1 = t then
            [((timer task.1).isSchedule, task.2)] else []).countP Prod.fst = 1 := by
          simp [about, schedule]
        have counted : (List.map Prod.fst [task]).count t = 1 := by
          simp [same]
        rw [if_pos also] at inductionHypothesis ⊢
        omega
      · have nothing : (if subject timer task.1 = t then
            [((timer task.1).isSchedule, task.2)] else []).countP Prod.fst = 0 := by
          by_cases about : subject timer task.1 = t
          · have stop : (timer task.1).isSchedule = false := by
              simpa [about] using own
            simp [about, stop]
          · simp [about]
        rw [nothing]
        split
        · rename_i schedule
          rw [if_pos schedule] at inductionHypothesis
          omega
        · rename_i stop
          rw [if_neg stop] at inductionHypothesis
          omega

/-- Every event calls `__complete_` or is a schedule. -/
theorem length_le_calls (story : List (Bool × Handling)) :
    story.length ≤ calls story + story.countP Prod.fst := by
  induction story with
  | nil => exact Nat.zero_le _
  | cons event rest inductionHypothesis =>
      rcases event with ⟨schedule, handling⟩
      unfold calls at inductionHypothesis ⊢
      cases schedule with
      | true =>
          simp only [List.length_cons, List.countP_cons]
          simp only [if_true]
          omega
      | false =>
          simp only [List.length_cons, List.countP_cons]
          simp only [Bool.not_false, Bool.or_true, if_true]
          omega

/-- With one schedule at most, a story calls `__complete_` once at most and
leaves no completed timer scheduled exactly when it is one of the two kinds. -/
theorem stoppedAtMostOnce_iff (story : List (Bool × Handling))
    (few : story.countP Prod.fst ≤ 1) :
    (calls story ≤ 1 ∧ (0 < calls story → level story = 0)) ↔ StoppedAtMostOnce story := by
  unfold StoppedAtMostOnce
  rcases story with _ | ⟨first, _ | ⟨second, _ | ⟨third, rest⟩⟩⟩
  · simp [calls]
  · rcases first with ⟨schedule, handling⟩
    cases schedule <;> cases handling <;> simp [calls, level, afterEvent]
  · rcases first with ⟨schedule, handling⟩
    rcases second with ⟨schedule', handling'⟩
    cases schedule <;> cases handling <;> cases schedule' <;> cases handling' <;>
      simp_all [calls, level, afterEvent]
  · have long := length_le_calls (first :: second :: third :: rest)
    simp only [List.length_cons] at long ⊢
    constructor
    · intro promise
      omega
    · intro kinds
      rcases kinds with short | exact_
      · omega
      · exact absurd (congrArg List.length exact_) (by simp)

/-- What a history does to one timer that is scheduled once at most. -/
theorem exclusive_iff_story (history : History) (t : Addr)
    (once : (timer t).isSchedule = true → (history.map Prod.fst).count t ≤ 1) :
    ((completions timer history).count t ≤ 1 ∧
      (t ∈ completions timer history → t ∉ scheduled timer (normalTasks history))) ↔
      StoppedAtMostOnce (story timer history t) := by
  have few : (story timer history t).countP Prod.fst ≤ 1 := by
    have bound : (story timer history t).countP Prod.fst ≤ _ := story_schedules_le history t
    by_cases schedule : (timer t).isSchedule = true
    · rw [if_pos schedule] at bound
      exact Nat.le_trans bound (once schedule)
    · rw [if_neg schedule] at bound
      omega
  rw [← stoppedAtMostOnce_iff _ few, ← completions_count, ← scheduled_count,
    List.count_pos_iff, List.count_eq_zero]

end Promises

end NgrCore
