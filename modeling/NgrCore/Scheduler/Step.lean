import NgrCore.Library.Transition
import NgrCore.Scheduler.State

/-!
Owns the steps of a scheduler in use, one relation for each function of the
source that the loop's thread runs, one for the calls from outside, and one for
the kernel. Every atomic operation on memory that threads share is one step.

A completion function may submit operations locally; they are the `pushes` of
the step that calls it, in order. A compare-exchange of the weak form may fail
without reason.
-/

namespace NgrCore.Scheduler

open NgrCore.Library

/-- What a condition on runs can see of a step, besides the state before it.
`handle` is a CQE handed to its operation, `submitted` the end of
`__submission_queue::_M_submit`, `timer` a timer task handled, `exit` the exit of
the loop, `compareExchange` the one of `_M_io_uring_enter`, `short` an
`io_uring_enter` that left entries unconsumed, and `wake` the end of a wait in
it. -/
inductive Label
  | tau
  | compareExchange
  | handle (pushes : List Addr)
  | submitted
  | timer (pushes : List Addr)
  | exit
  | short
  | wake
deriving Repr, DecidableEq

section Steps

variable (config : Config)

/-- `_M_accept_remote_request`. The detached list belongs to the loop alone, so
`__create_reversed` runs in the step that detaches it. -/
inductive AcceptStep : State → Label → State → Prop
  | load {s : State} {site : Site} {queue : Nat} {todo : List Nat}
      (pc : s.loop.pc = .accept site (queue :: todo)) :
      AcceptStep s .tau { s with
        loop.pc := .reset site queue todo (s.shared.head queue) }
  | retry {s : State} {site : Site} {queue : Nat} {todo : List Nat} {old : Option Addr}
      (pc : s.loop.pc = .reset site queue todo old) :
      AcceptStep s .tau { s with
        loop.pc := .reset site queue todo (s.shared.head queue) }
  | take {s : State} {site : Site} {queue : Nat} {todo : List Nat} {old : Option Addr}
      {fuel : Nat} {links : Links Addr} {reversed : IntrusiveQueue Addr} {taken : List Addr}
      (pc : s.loop.pc = .reset site queue todo old)
      (unchanged : s.shared.head queue = old)
      (created : IntrusiveQueue.createReversed s.shared.next fuel old = some (links, reversed))
      (chain : Chain links reversed.head taken) :
      AcceptStep s .tau { s with
        shared.head := Function.update s.shared.head queue none
        shared.next := links
        call := fun i => (s.call i).take s.log.accepts taken
        loop.pc := .accept site todo
        loop.ioPending :=
          if queue ∈ config.ioRemote then s.loop.ioPending ++ taken else s.loop.ioPending
        loop.drPending :=
          if queue ∈ config.ioRemote then s.loop.drPending else s.loop.drPending ++ taken
        log.accepted :=
          if queue ∈ config.ioRemote then s.log.accepted else s.log.accepted ++ taken }
  | doneLoop {s : State} (pc : s.loop.pc = .accept .loop []) :
      AcceptStep s .tau { s with
        loop.pc := .loopHead
        log.accepts := s.log.accepts + 1 }
  | doneFinal {s : State} (pc : s.loop.pc = .accept .final []) :
      AcceptStep s .tau { s with
        loop.pc := .submitBegin .final true
        log.accepts := s.log.accepts + 1 }

/-- `__completion_queue::_M_complete`, called by `_M_run_some` and at the end of
`_M_run_until_stop`. -/
inductive CompleteStep : State → Label → State → Prop
  | begin {s : State} (pc : s.loop.pc = .loopHead) :
      CompleteStep s .tau { s with
        loop.pc := .complete .loop 0
        log.passStart := s.kernel.now }
  | handle {s : State} {site : Site} {n : Nat} {cqe : Cqe} {rest : List Cqe}
      (pushes : List Addr)
      (pc : s.loop.pc = .complete site n) (posted : s.kernel.cq = cqe :: rest) :
      CompleteStep s (.handle pushes) { s with
        kernel.cq := rest
        loop.ioPending := pushLocal pushes s.loop.ioPending
        loop.pc := .complete site (n + if cqe.more then 0 else 1) }
  | doneLoop {s : State} {n : Nat}
      (pc : s.loop.pc = .complete .loop n) (drained : s.kernel.cq = []) :
      CompleteStep s .tau { s with
        loop.nTotalSubmit := s.loop.nTotalSubmit - n
        loop.pc := .stopLoad }
  | doneFinal {s : State} {n : Nat}
      (pc : s.loop.pc = .complete .final n) (drained : s.kernel.cq = []) :
      CompleteStep s .tau { s with loop.pc := .finished n }

/-- `_M_io_uring_submit` up to the end of `__submission_queue::_M_submit`. -/
inductive SubmitStep : State → Label → State → Prop
  | stopLoad {s : State} (pc : s.loop.pc = .stopLoad) :
      SubmitStep s .tau { s with
        loop.pc := .submitBegin .loop s.shared.stopRequested }
  | begin {s : State} {site : Site} {stop : Bool}
      (pc : s.loop.pc = .submitBegin site stop) :
      SubmitStep s .tau { s with
        loop.pc := .submit site stop stop (submitMax config s.loop s.kernel) 0 }
  | publish {s : State} {site : Site} {stop cur : Bool} {max r : Nat} {op : Addr}
      {rest : List Addr}
      (pc : s.loop.pc = .submit site stop cur max r)
      (pending : s.loop.ioPending = op :: rest) (room : r < max)
      (goes : (cur && !config.isCancel op) = false) :
      SubmitStep s .tau { s with
        kernel.sq := s.kernel.sq ++ [op]
        loop.ioPending := rest
        loop.pc := .submit site stop false max (r + 1) }
  | stop {s : State} {site : Site} {stop cur : Bool} {max r : Nat} {op : Addr}
      {rest : List Addr} (pushes : List Addr)
      (pc : s.loop.pc = .submit site stop cur max r)
      (pending : s.loop.ioPending = op :: rest) (room : r < max)
      (stays : (cur && !config.isCancel op) = true) :
      SubmitStep s .tau { s with
        loop.ioPending := pushLocal pushes rest
        loop.pc := .submit site stop true max r }
  | done {s : State} {site : Site} {stop cur : Bool} {max r : Nat}
      (pc : s.loop.pc = .submit site stop cur max r)
      (finished : s.loop.ioPending = [] ∨ max ≤ r) :
      SubmitStep s .submitted { s with
        loop.nTotalSubmit := s.loop.nTotalSubmit + r
        loop.nNewlySubmit := s.loop.nNewlySubmit + r
        loop.drPending := []
        loop.pc := .timers site stop s.loop.drPending }

inductive TimerStep : State → Label → State → Prop
  | manualStop {s : State} {site : Site} {op : Addr} {rest : List Addr} (pushes : List Addr)
      (pc : s.loop.pc = .timers site true (op :: rest)) :
      TimerStep s (.timer pushes) { s with
        loop.ioPending := pushLocal pushes s.loop.ioPending
        loop.pc := .timers site true rest
        log.handled := s.log.handled ++ [(op, .stopping)]
        log.completed := s.log.completed ++ [subject config.timer op] }
  | schedule {s : State} {site : Site} {op : Addr} {rest : List Addr} {key : TimeSequence}
      (pc : s.loop.pc = .timers site false (op :: rest))
      (command : config.timer op = .schedule key) :
      TimerStep s (.timer []) { s with
        loop.heap := timerPush config.timer s.loop.heap op
        loop.pc := .timers site false rest
        log.handled := s.log.handled ++ [(op, .normal)] }
  | stop {s : State} {site : Site} {op target : Addr} {rest : List Addr} (pushes : List Addr)
      (pc : s.loop.pc = .timers site false (op :: rest))
      (command : config.timer op = .stop target) :
      TimerStep s (.timer pushes) { s with
        loop.heap := (timerRemove config.timer s.loop.heap target).2
        loop.ioPending := pushLocal pushes s.loop.ioPending
        loop.pc := .timers site false rest
        log.handled := s.log.handled ++ [(op, .normal)]
        log.completed := s.log.completed ++ [target] }
  | doneLoop {s : State} {stop : Bool} (pc : s.loop.pc = .timers .loop stop []) :
      TimerStep s .tau { s with loop.pc := .exitTest }
  | doneFinal {s : State} {stop : Bool} (pc : s.loop.pc = .timers .final stop []) :
      TimerStep s .tau { s with
        loop.pc := .syscall .final (toUnsigned s.loop.nTotalSubmit).toNat none }

/-- `_M_io_uring_enter`, and the `io_uring_enter` system call there and at the
end of `_M_run_until_stop`. The kernel consumes entries in order; it waits only
when it consumed all of them, and reports an error only when it consumed
none. -/
inductive EnterStep : State → Label → State → Prop
  | lock {s : State} (pc : s.loop.pc = .lock) (free : s.shared.mutex = none) :
      EnterStep s .tau { s with
        shared.mutex := some .loop
        loop.pc := .compareExchange }
  | sleep {s : State} (pc : s.loop.pc = .compareExchange) (running : s.shared.state = .run) :
      EnterStep s .compareExchange { s with
        shared.state := .sleep
        loop.pc := .top
        log.exchangesBefore := s.log.exchangesAtCas
        log.exchangesAtCas := s.log.exchanges
        log.newlyAtCas := s.loop.nNewlySubmit
        log.entered := none }
  | notified {s : State} (pc : s.loop.pc = .compareExchange)
      (other : s.shared.state ≠ .run) :
      EnterStep s .compareExchange { s with
        loop.pc := .skip
        log.exchangesBefore := s.log.exchangesAtCas
        log.exchangesAtCas := s.log.exchanges
        log.newlyAtCas := s.loop.nNewlySubmit
        log.entered := none }
  | skip {s : State} (pc : s.loop.pc = .skip) :
      EnterStep s .tau { s with
        shared.mutex := none
        loop.pc := .enterReturned
        log.skips := s.log.skips + 1 }
  | top {s : State} (pc : s.loop.pc = .top) :
      EnterStep s .tau { s with
        loop.pc := .unlock (rootTimeout config s.loop s.kernel) }
  | unlock {s : State} {timeout : Option Timespec} (pc : s.loop.pc = .unlock timeout) :
      EnterStep s .tau { s with
        shared.mutex := none
        loop.pc := .syscall .loop 1 timeout }
  | consume {s : State} {site : Site} {minComplete : Nat} {timeout : Option Timespec}
      (pc : s.loop.pc = .syscall site minComplete timeout)
      (published : toSubmit s.loop ≤ s.kernel.sq.length) :
      EnterStep s .tau { s with
        kernel.sq := s.kernel.sq.drop (toSubmit s.loop)
        kernel.inflight := s.kernel.inflight ++ s.kernel.sq.take (toSubmit s.loop)
        loop.pc := .wait site minComplete (toSubmit s.loop)
          (timeout.map fun span => s.kernel.now + span.nanoseconds)
        log.entered := some (toSubmit s.loop) }
  | short {s : State} {site : Site} {minComplete : Nat} {timeout : Option Timespec}
      (count : Nat) (pc : s.loop.pc = .syscall site minComplete timeout)
      (fewer : count < toSubmit s.loop) (published : count ≤ s.kernel.sq.length) :
      EnterStep s .short { s with
        kernel.sq := s.kernel.sq.drop count
        kernel.inflight := s.kernel.inflight ++ s.kernel.sq.take count
        loop.pc := .returned site count
        log.entered := some (toSubmit s.loop) }
  | fail {s : State} {site : Site} {minComplete : Nat} {timeout : Option Timespec}
      (rc : Int) (pc : s.loop.pc = .syscall site minComplete timeout) (fatal : Fatal rc) :
      EnterStep s .tau { s with
        loop.pc := .returned site rc
        log.entered := some (toSubmit s.loop) }
  | ready {s : State} {site : Site} {minComplete submitted : Nat} {deadline : Option Int}
      (pc : s.loop.pc = .wait site minComplete submitted deadline)
      (posted : minComplete ≤ s.kernel.cq.length) :
      EnterStep s .wake { s with loop.pc := .returned site submitted }
  | timeout {s : State} {site : Site} {minComplete submitted : Nat} {deadline : Int}
      (rc : Int) (pc : s.loop.pc = .wait site minComplete submitted (some deadline))
      (expired : deadline ≤ s.kernel.now)
      (result : rc = submitted ∨ (submitted = 0 ∧ rc = -ETIME)) :
      EnterStep s .wake { s with loop.pc := .returned site rc }
  | signal {s : State} {site : Site} {minComplete submitted : Nat} {deadline : Option Int}
      (rc : Int) (pc : s.loop.pc = .wait site minComplete submitted deadline)
      (result : rc = submitted ∨ (submitted = 0 ∧ rc = -EINTR)) :
      EnterStep s .wake { s with loop.pc := .returned site rc }
  | store {s : State} {rc : Int} (pc : s.loop.pc = .returned .loop rc) :
      EnterStep s .tau { s with
        shared.state := .run
        loop.pc := .update rc }
  | throwLoop {s : State} {rc : Int} (pc : s.loop.pc = .update rc) (fatal : Fatal rc) :
      EnterStep s .tau { s with loop.pc := .thrown .loop (-rc) }
  | timedOut {s : State} {rc : Int} (pc : s.loop.pc = .update rc) (time : rc = -ETIME) :
      EnterStep s .tau { s with
        loop.nNewlySubmit := 0
        loop.pc := .enterReturned }
  | interrupted {s : State} {rc : Int} (pc : s.loop.pc = .update rc) (signal : rc = -EINTR) :
      EnterStep s .tau { s with loop.pc := .enterReturned }
  | consumed {s : State} {rc : Int} (pc : s.loop.pc = .update rc) (count : 0 ≤ rc) :
      EnterStep s .tau { s with
        loop.nNewlySubmit := s.loop.nNewlySubmit - rc
        loop.pc := .enterReturned }
  | throwFinal {s : State} {rc : Int} (pc : s.loop.pc = .returned .final rc)
      (fatal : Fatal rc) :
      EnterStep s .tau { s with loop.pc := .thrown .final (-rc) }
  | complete {s : State} {rc : Int} (pc : s.loop.pc = .returned .final rc)
      (normal : ¬ Fatal rc) :
      EnterStep s .tau { s with loop.pc := .complete .final 0 }

/-- The control flow of `_M_run_until_stop`. -/
inductive RunStep : State → Label → State → Prop
  | stay {s : State} (pc : s.loop.pc = .exitTest)
      (more : ¬ exitCondition s.shared s.loop) :
      RunStep s .tau { s with loop.pc := .lock }
  | exit {s : State} (pc : s.loop.pc = .exitTest) (leave : exitCondition s.shared s.loop) :
      RunStep s .exit { s with loop.pc := .close }
  | again {s : State} (pc : s.loop.pc = .enterReturned) :
      RunStep s .tau { s with loop.pc := .accept .loop config.remote }
  | close {s : State} (pc : s.loop.pc = .close) (unused : s.shared.nSubmitInFlight = 0) :
      RunStep s .tau { s with
        shared.nSubmitInFlight := noNewSubmit
        loop.pc := .accept .final config.remote }
  | closeRetry {s : State} (pc : s.loop.pc = .close)
      (stillOpen : s.shared.nSubmitInFlight ≠ noNewSubmit) :
      RunStep s .tau s
  | closed {s : State} (pc : s.loop.pc = .close)
      (already : s.shared.nSubmitInFlight = noNewSubmit) :
      RunStep s .tau { s with loop.pc := .accept .final config.remote }

/-- `_M_submit` on a remote queue, `_M_request_stop` and `_M_notify`. An
operation is passed to `_M_submit` only when no other call still owns it. -/
inductive CallStep : State → Label → State → Prop
  | beginSubmit {s : State} (i queue : Nat) (op : Addr) (idle : (s.call i).pc = .idle)
      (registered : queue ∈ config.remote)
      (free : ∀ j, (s.call j).holding ≠ some op) :
      CallStep s .tau { s with
        call := Function.update s.call i { kind := .submit queue op, pc := .reserve 0 }
        log.submitted :=
          if queue ∈ config.ioRemote then s.log.submitted else s.log.submitted ++ [op] }
  | beginStop {s : State} (i : Nat) (idle : (s.call i).pc = .idle) :
      CallStep s .tau { s with
        call := Function.update s.call i { kind := .requestStop, pc := .setStop } }
  | beginNotify {s : State} (i : Nat) (idle : (s.call i).pc = .idle) :
      CallStep s .tau { s with
        call := Function.update s.call i { kind := .notify, pc := .exchange } }
  | reserve {s : State} {n : Int} (i : Nat) (pc : (s.call i).pc = .reserve n)
      (stillOpen : n ≠ noNewSubmit) (unchanged : s.shared.nSubmitInFlight = n) :
      CallStep s .tau { s with
        shared.nSubmitInFlight := n + 1
        call := Function.update s.call i { s.call i with pc := .loadHead } }
  | reserveRetry {s : State} {n : Int} (i : Nat) (pc : (s.call i).pc = .reserve n)
      (stillOpen : n ≠ noNewSubmit) :
      CallStep s .tau { s with
        call := Function.update s.call i
          { s.call i with pc := .reserve s.shared.nSubmitInFlight } }
  | rejectIo {s : State} {queue : Nat} {op : Addr} (i : Nat)
      (kind : (s.call i).kind = .submit queue op)
      (pc : (s.call i).pc = .reserve noNewSubmit) (io : queue ∈ config.ioRemote) :
      CallStep s .tau { s with
        call := Function.update s.call i { s.call i with pc := .rejected } }
  | rejectTimer {s : State} {queue : Nat} {op : Addr} (i : Nat)
      (kind : (s.call i).kind = .submit queue op)
      (pc : (s.call i).pc = .reserve noNewSubmit) (dr : queue ∉ config.ioRemote) :
      CallStep s .tau { s with
        call := Function.update s.call i { s.call i with pc := .rejected }
        log.handled := s.log.handled ++ [(op, .rejected)]
        log.completed := s.log.completed ++ [subject config.timer op] }
  | loadHead {s : State} {queue : Nat} {op : Addr} (i : Nat)
      (kind : (s.call i).kind = .submit queue op) (pc : (s.call i).pc = .loadHead) :
      CallStep s .tau { s with
        shared.next := Function.update s.shared.next op (s.shared.head queue)
        call := Function.update s.call i
          { s.call i with pc := .link (s.shared.head queue) } }
  | linkRetry {s : State} {queue : Nat} {op : Addr} {old : Option Addr} (i : Nat)
      (kind : (s.call i).kind = .submit queue op) (pc : (s.call i).pc = .link old) :
      CallStep s .tau { s with
        shared.next := Function.update s.shared.next op (s.shared.head queue)
        call := Function.update s.call i
          { s.call i with pc := .link (s.shared.head queue) } }
  | link {s : State} {queue : Nat} {op : Addr} {old : Option Addr} (i : Nat)
      (kind : (s.call i).kind = .submit queue op) (pc : (s.call i).pc = .link old)
      (unchanged : s.shared.head queue = old) :
      CallStep s .tau { s with
        shared.head := Function.update s.shared.head queue (some op)
        call := Function.update s.call i { s.call i with pc := .release }
        log.pushed := s.log.pushed ++ [(queue, op)] }
  | release {s : State} (i : Nat) (pc : (s.call i).pc = .release) :
      CallStep s .tau { s with
        shared.nSubmitInFlight := s.shared.nSubmitInFlight - 1
        call := Function.update s.call i { s.call i with pc := .exchange } }
  | setStop {s : State} (i : Nat) (pc : (s.call i).pc = .setStop) :
      CallStep s .tau { s with
        shared.stopRequested := true
        call := Function.update s.call i { s.call i with pc := .exchange } }
  | exchangeAsleep {s : State} (i : Nat) (pc : (s.call i).pc = .exchange)
      (asleep : s.shared.state = .sleep) :
      CallStep s .tau { s with
        shared.state := .notify
        call := Function.update s.call i { s.call i with pc := .lock }
        log.exchanges := s.log.exchanges + 1 }
  | exchangeAwake {s : State} (i : Nat) (pc : (s.call i).pc = .exchange)
      (awake : s.shared.state ≠ .sleep) :
      CallStep s .tau { s with
        shared.state := .notify
        call := Function.update s.call i { s.call i with pc := .returned }
        log.exchanges := s.log.exchanges + 1 }
  | lock {s : State} (i : Nat) (pc : (s.call i).pc = .lock) (free : s.shared.mutex = none) :
      CallStep s .tau { s with
        shared.mutex := some (.call i)
        call := Function.update s.call i { s.call i with pc := .unlock } }
  | unlock {s : State} (i : Nat) (pc : (s.call i).pc = .unlock) :
      CallStep s .tau { s with
        shared.mutex := none
        call := Function.update s.call i { s.call i with pc := .write } }
  | write {s : State} (i : Nat) (pc : (s.call i).pc = .write) :
      CallStep s .tau { s with
        shared.eventfd := s.shared.eventfd + 1
        call := Function.update s.call i { s.call i with pc := .returned } }

/-- The kernel posts CQEs of consumed operations while the ring has room, the
last one without `F_MORE`; time passes. No step depends on the eventfd. -/
inductive KernelStep : State → Label → State → Prop
  | postMore {s : State} (cqe : Cqe) (consumed : cqe.userData ∈ s.kernel.inflight)
      (room : s.kernel.cq.length < config.cqEntries) (more : cqe.more = true) :
      KernelStep s .tau { s with kernel.cq := s.kernel.cq ++ [cqe] }
  | postLast {s : State} (cqe : Cqe) (consumed : cqe.userData ∈ s.kernel.inflight)
      (room : s.kernel.cq.length < config.cqEntries) (last : cqe.more = false) :
      KernelStep s .tau { s with
        kernel.inflight := s.kernel.inflight.erase cqe.userData
        kernel.cq := s.kernel.cq ++ [cqe] }
  | tick {s : State} (later : Int) (forward : s.kernel.now ≤ later) :
      KernelStep s .tau { s with kernel.now := later }

inductive Step : State → Label → State → Prop
  | accept {s next : State} {label : Label} :
      AcceptStep config s label next → Step s label next
  | complete {s next : State} {label : Label} :
      CompleteStep s label next → Step s label next
  | submit {s next : State} {label : Label} :
      SubmitStep config s label next → Step s label next
  | timer {s next : State} {label : Label} :
      TimerStep config s label next → Step s label next
  | enter {s next : State} {label : Label} :
      EnterStep config s label next → Step s label next
  | run {s next : State} {label : Label} :
      RunStep config s label next → Step s label next
  | call {s next : State} {label : Label} :
      CallStep config s label next → Step s label next
  | kernel {s next : State} {label : Label} :
      KernelStep config s label next → Step s label next

/-- Any number of calls from outside, the loop and the kernel, interleaved. -/
def system : System State Label where
  Init s := ∃ now pending, s = initial config now pending
  Step := Step config

end Steps

@[simp] theorem Call.take_nil (index : Nat) (call : Call) : call.take index [] = call := by
  unfold Call.take
  split <;> simp

/-- Accepting from an empty queue changes nothing, under any condition on runs
that lets unlabelled steps pass. -/
theorem accept_empty {config : Config} {Condition : State → Label → Prop}
    (quiet : ∀ s, Condition s .tau) {s : State} {site : Site} {queue : Nat} {todo : List Nat}
    (reachable : ((system config).restrict Condition).Reachable s)
    (pc : s.loop.pc = .accept site (queue :: todo)) (empty : s.shared.head queue = none) :
    ((system config).restrict Condition).Reachable { s with loop.pc := .accept site todo } := by
  have loaded := reachable.step ⟨quiet _, .accept (.load pc)⟩
  have created : IntrusiveQueue.createReversed s.shared.next 0 none =
      some (s.shared.next, ⟨none, none⟩) := rfl
  have nothing : Chain s.shared.next none [] := rfl
  have taken := loaded.step
    ⟨quiet _, .accept (.take rfl rfl (by rw [← created, ← empty]) nothing)⟩
  have head : Function.update s.shared.head queue none = s.shared.head := by
    rw [← empty]
    exact Function.update_eq_self queue s.shared.head
  simp only [Call.take_nil, List.append_nil, ite_self, head] at taken
  exact taken

/-- Accepting takes the whole list of a queue, in the order of its pushes. -/
theorem accept_take {config : Config} {Condition : State → Label → Prop}
    (quiet : ∀ s, Condition s .tau) {s : State} {site : Site} {queue : Nat} {todo : List Nat}
    (reachable : ((system config).restrict Condition).Reachable s)
    (pc : s.loop.pc = .accept site (queue :: todo)) (ops : List Addr)
    (chain : Chain s.shared.next (s.shared.head queue) ops) :
    ∃ links, ((system config).restrict Condition).Reachable { s with
      shared.head := Function.update s.shared.head queue none
      shared.next := links
      call := fun i => (s.call i).take s.log.accepts ops.reverse
      loop.pc := .accept site todo
      loop.ioPending :=
        if queue ∈ config.ioRemote then s.loop.ioPending ++ ops.reverse else s.loop.ioPending
      loop.drPending :=
        if queue ∈ config.ioRemote then s.loop.drPending else s.loop.drPending ++ ops.reverse
      log.accepted :=
        if queue ∈ config.ioRemote then s.log.accepted else s.log.accepted ++ ops.reverse } := by
  rcases IntrusiveQueue.createReversed_spec ops.length (Nat.le_refl _) chain with
    ⟨links, reversed, created, represents, _⟩
  have loaded := reachable.step ⟨quiet _, .accept (.load pc)⟩
  have taken := loaded.step ⟨quiet _, .accept (.take rfl rfl created represents.1)⟩
  exact ⟨links, taken⟩

/-- Nobody owns an operation after a call changed to one that does not own
it. -/
theorem Call.free_update {call : Nat → Call} {op : Addr}
    (free : ∀ j, (call j).holding ≠ some op) (i : Nat) (changed : Call)
    (other : changed.holding ≠ some op) :
    ∀ j, (Function.update call i changed j).holding ≠ some op := by
  intro j
  by_cases this : j = i
  · rw [this, Function.update_self]
    exact other
  · rw [Function.update_of_ne this]
    exact free j

/-- An undisturbed remote `_M_submit` while the loop is awake. -/
theorem submit_remote {config : Config} {Condition : State → Label → Prop}
    (quiet : ∀ s, Condition s .tau) {s : State} (i queue : Nat) (op : Addr)
    (reachable : ((system config).restrict Condition).Reachable s)
    (idle : (s.call i).pc = .idle) (registered : queue ∈ config.remote)
    (free : ∀ j, (s.call j).holding ≠ some op) (unused : s.shared.nSubmitInFlight = 0)
    (awake : s.shared.state ≠ .sleep) :
    ((system config).restrict Condition).Reachable { s with
      shared.state := .notify
      shared.next := Function.update s.shared.next op (s.shared.head queue)
      shared.head := Function.update s.shared.head queue (some op)
      call := Function.update s.call i { kind := .submit queue op, pc := .returned }
      log.exchanges := s.log.exchanges + 1
      log.pushed := s.log.pushed ++ [(queue, op)]
      log.submitted :=
        if queue ∈ config.ioRemote then s.log.submitted else s.log.submitted ++ [op] } := by
  have begun := reachable.step
    ⟨quiet _, .call (.beginSubmit i queue op idle registered free)⟩
  have reserved := begun.step
    ⟨quiet _, .call (.reserve i (by simp) (by decide) unused)⟩
  have loaded := reserved.step
    ⟨quiet _, .call (@CallStep.loadHead _ _ queue op i (by simp) (by simp))⟩
  have linked := loaded.step
    ⟨quiet _, .call (@CallStep.link _ _ queue op _ i (by simp) (by simp) rfl)⟩
  have released := linked.step ⟨quiet _, .call (.release i (by simp))⟩
  have notified := released.step ⟨quiet _, .call (.exchangeAwake i (by simp) awake)⟩
  simpa [Function.update_idem, unused] using notified

/-! ### A small scheduler

Its runs show that the hypotheses of later results can be met. -/

/-- One io queue, one timer queue, timers due at time 5, and a stop task at
address 9 for the timer at address 8. -/
def small : Config where
  sqEntries := 4
  cqEntries := 8
  isCancel := fun _ => false
  timer := fun op => if op = 9 then .stop 8 else .schedule { deadline := 5, seq := op }
  ioRemote := [0]
  drRemote := [1]
  sqEntries_lt := by decide
  cqEntries_lt := by decide
  separate := by decide

/-- The small scheduler blocked in its first wait, with operation 7 in flight. -/
def blocked : State where
  shared := { state := .sleep }
  call := fun _ => {}
  loop := { pc := .wait .loop 1 1 none, nTotalSubmit := 1, nNewlySubmit := 1 }
  kernel := { inflight := [7], now := 0 }
  log := { accepts := 1, passStart := 0, newlyAtCas := 1, entered := some 1 }

/-- A condition on runs that lets pass what an undisturbed first iteration
does. -/
structure Lenient (Condition : State → Label → Prop) : Prop where
  quiet : ∀ s, Condition s .tau
  submitted : ∀ s stop cur max r, s.loop.pc = .submit .loop stop cur max r →
    s.loop.drPending = [] → s.log.handled = [] → Condition s .submitted
  compareExchange : ∀ s, s.shared.state = .run → Condition s .compareExchange

theorem lenient_true : Lenient fun _ _ => True :=
  ⟨fun _ => trivial, fun _ _ _ _ _ _ _ _ => trivial, fun _ _ => trivial⟩

theorem Lenient.blocked {Condition : State → Label → Prop} (lenient : Lenient Condition) :
    ((system small).restrict Condition).Reachable blocked := by
  have quiet := lenient.quiet
  have start : ((system small).restrict Condition).Reachable (initial small 0 [7]) :=
    .init ⟨0, [7], rfl⟩
  have accepted := accept_empty quiet (accept_empty quiet start rfl rfl) rfl rfl
  have head := accepted.step ⟨quiet _, .accept (.doneLoop rfl)⟩
  have begun := head.step ⟨quiet _, .complete (.begin rfl)⟩
  have drained := begun.step ⟨quiet _, .complete (.doneLoop rfl rfl)⟩
  have stop := drained.step ⟨quiet _, .submit (.stopLoad rfl)⟩
  have submitting := stop.step ⟨quiet _, .submit (.begin rfl)⟩
  have published := submitting.step ⟨quiet _, .submit (.publish rfl rfl (by decide) rfl)⟩
  have added := published.step
    ⟨lenient.submitted _ _ _ _ _ rfl rfl rfl, .submit (.done rfl (.inl rfl))⟩
  have tested := added.step ⟨quiet _, .timer (.doneLoop rfl)⟩
  have entering := tested.step ⟨quiet _, .run (.stay rfl (by decide))⟩
  have locked := entering.step ⟨quiet _, .enter (.lock rfl rfl)⟩
  have asleep := locked.step ⟨lenient.compareExchange _ rfl, .enter (.sleep rfl rfl)⟩
  have timed := asleep.step ⟨quiet _, .enter (.top rfl)⟩
  have unlocked := timed.step ⟨quiet _, .enter (.unlock rfl)⟩
  have waiting := unlocked.step ⟨quiet _, .enter (.consume rfl (by decide))⟩
  exact waiting

theorem blocked_reachable : (system small).Reachable blocked :=
  lenient_true.blocked.of_restrict

end NgrCore.Scheduler
