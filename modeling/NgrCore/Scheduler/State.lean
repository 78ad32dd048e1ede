import NgrCore.TimerHistory
import NgrCore.IntrusiveQueue
import NgrCore.SubmissionQueue

/-!
Owns the state of a `__scheduler` in use: the memory its threads share, every
call made on it from outside the loop, the thread in `_M_run_until_stop`, the
kernel's side of the ring, and a log.

The rings appear as the lists of their unconsumed entries, oldest first; the
counters behind them belong to `SubmissionQueue` and `CompletionQueue`. The log
is written and never read by the program.
-/

namespace NgrCore.Scheduler

open NgrCore.Library

inductive Sg
  | run
  | sleep
  | notify
deriving Repr, DecidableEq

def EINTR : Int := 4

def ETIME : Int := 62

def noNewSubmit : Int := -1

/-- The conversion of a counter to a 32-bit unsigned argument. -/
def toUnsigned (value : Int) : BitVec 32 := BitVec.ofInt 32 value

/-- A result of `io_uring_enter` that `__throw_error_code_if` throws on. -/
def Fatal (rc : Int) : Prop := rc < 0 ∧ rc ≠ -EINTR ∧ rc ≠ -ETIME

instance (rc : Int) : Decidable (Fatal rc) :=
  inferInstanceAs (Decidable (rc < 0 ∧ rc ≠ -EINTR ∧ rc ≠ -ETIME))

/-- What a run is given: the sizes of the rings, which operations submit an
`IORING_OP_ASYNC_CANCEL`, the timer tasks, and the registered remote queues. -/
structure Config where
  sqEntries : Nat
  cqEntries : Nat
  isCancel : Addr → Bool
  timer : Addr → TimerTask
  ioRemote : List Nat
  drRemote : List Nat
  sqEntries_lt : sqEntries < 2 ^ 32
  cqEntries_lt : cqEntries < 2 ^ 32
  separate : (ioRemote ++ drRemote).Nodup

/-- All registered queues, in the order `_M_accept_remote_request` visits
them. -/
def Config.remote (config : Config) : List Nat := config.ioRemote ++ config.drRemote

/-! ### Calls from outside the loop -/

/-- A call of the remote `_M_submit`, of `_M_request_stop`, or of `_M_notify`
alone. -/
inductive CallKind
  | submit (queue : Nat) (op : Addr)
  | requestStop
  | notify
deriving Repr, DecidableEq

/-- Where a call stands. `rejected` is the end of a remote `_M_submit` that took
the rejection branch, `returned` the end of any other call. -/
inductive CallPc
  | idle
  | reserve (n : Int)
  | loadHead
  | link (old : Option Addr)
  | release
  | setStop
  | exchange
  | lock
  | unlock
  | write
  | returned
  | rejected
deriving Repr, DecidableEq

/-- A call, with the numbers of the `_M_accept_remote_request` calls that took
its operation. -/
structure Call where
  kind : CallKind := .notify
  pc : CallPc := .idle
  drains : List Nat := []
deriving Repr, DecidableEq

/-- The operation that a remote `_M_submit` still owns, in its hands or in its
remote queue. -/
def Call.holding (call : Call) : Option Addr :=
  match call.kind, call.pc, call.drains with
  | .submit _ _, .idle, _ => none
  | .submit _ _, .rejected, _ => none
  | .submit _ op, _, [] => some op
  | _, _, _ => none

/-- An `_M_accept_remote_request` took the operations. -/
def Call.take (index : Nat) (taken : List Addr) (call : Call) : Call :=
  match call.holding with
  | some op => if op ∈ taken then { call with drains := index :: call.drains } else call
  | none => call

/-! ### The loop -/

/-- The part of `_M_run_until_stop` that runs: its loop, or the code after
it. -/
inductive Site
  | loop
  | final
deriving Repr, DecidableEq

/-- Where the thread in `_M_run_until_stop` stands, with its local variables.
`accept` holds the remote queues still to visit, `complete` the count of
`__completion_queue::_M_complete`, `submit` the locals of
`__submission_queue::_M_submit`, `timers` the local `__tmp`, `skip` follows a
failed compare-exchange. -/
inductive LoopPc
  | accept (site : Site) (todo : List Nat)
  | reset (site : Site) (queue : Nat) (todo : List Nat) (old : Option Addr)
  | loopHead
  | complete (site : Site) (n : Nat)
  | stopLoad
  | submitBegin (site : Site) (stop : Bool)
  | submit (site : Site) (stop cur : Bool) (max r : Nat)
  | timers (site : Site) (stop : Bool) (tmp : List Addr)
  | exitTest
  | lock
  | compareExchange
  | top
  | unlock (timeout : Option Timespec)
  | syscall (site : Site) (minComplete : Nat) (timeout : Option Timespec)
  | wait (site : Site) (minComplete submitted : Nat) (deadline : Option Int)
  | returned (site : Site) (rc : Int)
  | update (rc : Int)
  | skip
  | enterReturned
  | close
  | finished (m : Nat)
  | thrown (site : Site) (code : Int)
deriving Repr, DecidableEq

/-- The members only the loop's thread uses. -/
structure Loop where
  pc : LoopPc
  nTotalSubmit : Int := 0
  nNewlySubmit : Int := 0
  ioPending : List Addr := []
  drPending : List Addr := []
  heap : List Addr := []

/-! ### The whole -/

/-- Who holds `__mut_`. -/
inductive Owner
  | loop
  | call (index : Nat)
deriving Repr, DecidableEq

/-- The memory the threads share. `next` is the link field of every task and
`head` the head of every remote queue. -/
structure Shared where
  state : Sg := .run
  mutex : Option Owner := none
  eventfd : Nat := 0
  stopRequested : Bool := false
  nSubmitInFlight : Int := 0
  next : Links Addr := fun _ => none
  head : Nat → Option Addr := fun _ => none

/-- The kernel's side: the submission ring, the consumed operations that still
owe their last CQE, the completion ring, and the clock. -/
structure Kernel where
  sq : List Addr := []
  inflight : List Addr := []
  cq : List Cqe := []
  now : Int

/-- What happened so far.
`passStart` is the time at the beginning of the current `_M_run_some`;
`exchangesAtCas`, `newlyAtCas` and `entered` belong to the current
`_M_io_uring_enter`: the exchanges and `__n_newly_submit_` at its
compare-exchange, and the `to_submit` it passed to the kernel;
`exchangesBefore` is the number of exchanges at the compare-exchange before;
`pushed` lists the pushes on remote queues, `submitted` the timer tasks passed to
the remote `_M_submit`, `accepted` those moved to `__dr_pending_`, `handled` those
handled, and `completed` the timers whose `__complete_` was called. -/
structure Log where
  accepts : Nat := 0
  passStart : Int
  exchanges : Nat := 0
  skips : Nat := 0
  exchangesBefore : Nat := 0
  exchangesAtCas : Nat := 0
  newlyAtCas : Int := 0
  entered : Option Nat := none
  pushed : List (Nat × Addr) := []
  submitted : List Addr := []
  accepted : List Addr := []
  handled : History := []
  completed : List Addr := []

structure State where
  shared : Shared
  call : Nat → Call
  loop : Loop
  kernel : Kernel
  log : Log

/-- A scheduler about to run, with operations submitted locally before. -/
def initial (config : Config) (now : Int) (pending : List Addr) : State where
  shared := {}
  call := fun _ => {}
  loop := { pc := .accept .loop config.remote, ioPending := pending }
  kernel := { now := now }
  log := { passStart := now }

/-! ### The computations of the loop -/

/-- `__params_.cq_entries - __u32(__n_total_submit_)`. -/
def available (config : Config) (loop : Loop) : BitVec 32 :=
  BitVec.ofNat 32 config.cqEntries - toUnsigned loop.nTotalSubmit

/-- `__max` inside `__submission_queue::_M_submit`. -/
def submitMax (config : Config) (loop : Loop) (kernel : Kernel) : Nat :=
  (SubmissionQueue.umin (available config loop)
    (BitVec.ofNat 32 config.sqEntries - BitVec.ofNat 32 kernel.sq.length)).toNat

/-- The `to_submit` passed to `io_uring_enter`. -/
def toSubmit (loop : Loop) : Nat := (toUnsigned loop.nNewlySubmit).toNat

/-- Local `_M_submit` calls by a completion function. -/
def pushLocal (pushes pending : List Addr) : List Addr :=
  pushes.foldl (fun queue op => op :: queue) pending

def exitCondition (shared : Shared) (loop : Loop) : Prop :=
  loop.nTotalSubmit = 0 ∨ (loop.nTotalSubmit = 1 ∧ shared.stopRequested = true)

instance (shared : Shared) (loop : Loop) : Decidable (exitCondition shared loop) :=
  inferInstanceAs (Decidable (_ ∨ _))

/-- The timeout of a wait, from the root of the heap. -/
def rootTimeout (config : Config) (loop : Loop) (kernel : Kernel) : Option Timespec :=
  loop.heap.head?.map fun op =>
    durationToTimespec ((config.timer op).key.deadline - kernel.now)

end NgrCore.Scheduler
