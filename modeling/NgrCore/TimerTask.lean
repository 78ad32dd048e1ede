import NgrCore.Library.BinaryHeap
import NgrCore.IoringTask

/-!
Owns timer tasks: the key of a `__timer_task`, the command of a
`__timer_task_base`, the operations of `__timer_heap` on keys, and the
conversion of a duration to the timeout of a wait.
-/

namespace NgrCore

open NgrCore.Library

/-- `__time_sequence`. A deadline is in nanoseconds of the steady clock. -/
structure TimeSequence where
  deadline : Int := 0
  seq : Nat := 0
deriving Repr, DecidableEq

/-- `operator<` of `__time_sequence`. -/
def TimeSequence.lt (first second : TimeSequence) : Bool :=
  first.deadline < second.deadline ||
    (!(second.deadline < first.deadline) && first.seq < second.seq)

/-- A `__timer_task_base`: a `__timer_task`, whose `__cmd_` is `_S_schedule`, or
a `__timer_stop_inplace`, whose `__cmd_` is `_S_stop`. -/
inductive TimerTask
  | schedule (key : TimeSequence)
  | stop (target : Addr)
deriving Repr, DecidableEq

namespace TimerTask

def key : TimerTask → TimeSequence
  | .schedule key => key
  | .stop _ => {}

/-- The task at an address asks for a timer to be scheduled. -/
def isSchedule : TimerTask → Bool
  | .schedule _ => true
  | .stop _ => false

end TimerTask

/-- The timer that `__manual_stop(__timer_task_base *)` stops: the task itself,
or the target of a stop. -/
def subject (timer : Addr → TimerTask) (op : Addr) : Addr :=
  match timer op with
  | .schedule _ => op
  | .stop target => target

/-- The order of the timers' keys. -/
def earlier (timer : Addr → TimerTask) (first second : Addr) : Bool :=
  (timer first).key.lt (timer second).key

/-- `__heap_._M_push`. -/
def timerPush (timer : Addr → TimerTask) (heap : List Addr) (op : Addr) : List Addr :=
  BinaryHeap.push (earlier timer) heap op

/-- `__heap_._M_remove`. -/
def timerRemove (timer : Addr → TimerTask) (heap : List Addr) (op : Addr) : Bool × List Addr :=
  BinaryHeap.remove (earlier timer) heap op

theorem timerPush_perm (timer : Addr → TimerTask) (heap : List Addr) (op : Addr) :
    (timerPush timer heap op).Perm (op :: heap) :=
  BinaryHeap.push_perm heap op

theorem timerRemove_perm (timer : Addr → TimerTask) (heap : List Addr) (op : Addr) :
    (timerRemove timer heap op).2.Perm (heap.erase op) :=
  BinaryHeap.remove_perm heap op

/-- `__kernel_timespec`. -/
structure Timespec where
  sec : Int
  nsec : Int
deriving Repr, DecidableEq

/-- The length of the time span in nanoseconds. -/
def Timespec.nanoseconds (span : Timespec) : Int := span.sec * 1000000000 + span.nsec

def durationToTimespec (dur : Int) : Timespec where
  sec := max (dur.tdiv 1000000000) 0
  nsec := max 0 (min (dur - dur.tdiv 1000000000 * 1000000000) 999999999)

/-- A timeout is the duration, and zero when the duration is negative. -/
theorem durationToTimespec_nanoseconds (dur : Int) :
    (durationToTimespec dur).nanoseconds = max dur 0 := by
  show max (dur.tdiv 1000000000) 0 * 1000000000 +
    max 0 (min (dur - dur.tdiv 1000000000 * 1000000000) 999999999) = max dur 0
  rcases Int.le_total 0 dur with positive | negative
  · have quotient : dur.tdiv 1000000000 = dur / 1000000000 := Int.tdiv_eq_ediv_of_nonneg positive
    rw [quotient]
    omega
  · have mirrored : dur.tdiv 1000000000 = -((-dur) / 1000000000) := by
      rw [← Int.tdiv_eq_ediv_of_nonneg (by omega), Int.neg_tdiv, Int.neg_neg]
    rw [mirrored]
    omega

end NgrCore
