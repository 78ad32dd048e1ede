import NgrCore.Library.ClosingCounter
import NgrCore.Scheduler.Step

/-!
Owns the remote `_M_submit`: the closing handshake on `__n_submit_in_flight_`,
the remote queues with their link fields, and what becomes of every operation
passed to it.

Proves that nothing is pushed once the counter is closed, that the last
`_M_accept_remote_request` leaves every remote queue empty for good, and that
every operation is taken by exactly one such call or rejected.
-/

namespace NgrCore.Scheduler

open NgrCore.Library

/-- Between the increment and the decrement of `__n_submit_in_flight_`. -/
def CallPc.inside : CallPc → Bool
  | .loadHead => true
  | .link _ => true
  | .release => true
  | _ => false

/-- After the push, in a remote `_M_submit`. -/
def CallPc.pushed : CallPc → Bool
  | .release => true
  | .exchange => true
  | .lock => true
  | .unlock => true
  | .write => true
  | .returned => true
  | _ => false

/-- The call pushed its operation and nobody took it yet. -/
def Call.LinkedIn (call : Call) (queue : Nat) (op : Addr) : Prop :=
  call.kind = .submit queue op ∧ call.pc.pushed = true ∧ call.drains = []

theorem Call.holding_eq_some {call : Call} {op : Addr} :
    call.holding = some op ↔ (∃ queue, call.kind = .submit queue op) ∧
      call.pc ≠ .idle ∧ call.pc ≠ .rejected ∧ call.drains = [] := by
  rcases call with ⟨kind, pc, drains⟩
  cases kind <;> cases pc <;> cases drains <;> simp [Call.holding]

theorem Call.LinkedIn.holding {call : Call} {queue : Nat} {op : Addr}
    (linked : call.LinkedIn queue op) : call.holding = some op := by
  rcases linked with ⟨kind, pushed, drains⟩
  rw [Call.holding_eq_some]
  refine ⟨⟨queue, kind⟩, ?_, ?_, drains⟩
  · intro idle
    rw [idle] at pushed
    exact absurd pushed nofun
  · intro rejected
    rw [rejected] at pushed
    exact absurd pushed nofun

@[simp] theorem Call.take_kind (index : Nat) (taken : List Addr) (call : Call) :
    (call.take index taken).kind = call.kind := by
  unfold Call.take
  split
  · split <;> rfl
  · rfl

@[simp] theorem Call.take_pc (index : Nat) (taken : List Addr) (call : Call) :
    (call.take index taken).pc = call.pc := by
  unfold Call.take
  split
  · split <;> rfl
  · rfl

theorem Call.take_of_holding {call : Call} {op : Addr} (index : Nat) {taken : List Addr}
    (holds : call.holding = some op) (member : op ∈ taken) :
    (call.take index taken).drains = [index] := by
  have fresh := (Call.holding_eq_some.mp holds).2.2.2
  unfold Call.take
  rw [holds]
  simp only [if_pos member, fresh]

theorem Call.take_of_not_holding {call : Call} (index : Nat) {taken : List Addr}
    (other : ∀ op ∈ taken, call.holding ≠ some op) : call.take index taken = call := by
  unfold Call.take
  split
  · rename_i op holds
    exact if_neg fun member => other op member holds
  · rfl

/-! ### The counter -/

/-- The counter counts the calls between their increment and their
decrement. -/
def Counted (call : Nat → Call) (count : Int) : Prop :=
  ∃ inside : List Nat, inside.Nodup ∧ (∀ i, i ∈ inside ↔ (call i).pc.inside = true) ∧
    ClosingCounter count inside

section Counter

variable {call : Nat → Call} {count : Int} {i : Nat} {changed : Call}

/-- A closed counter has no call inside. -/
theorem Counted.outside (counted : Counted call count) (closed : count = noNewSubmit)
    (j : Nat) : (call j).pc.inside = false := by
  rcases counted with ⟨inside, _, members, counter⟩
  have nobody := counter.nobody closed
  rw [← Bool.not_eq_true, ← members j, nobody]
  exact List.not_mem_nil

theorem Counted.congr {other : Nat → Call} (counted : Counted call count)
    (same : ∀ j, (other j).pc.inside = (call j).pc.inside) : Counted other count := by
  rcases counted with ⟨inside, nodup, members, counter⟩
  refine ⟨inside, nodup, ?_, counter⟩
  intro j
  rw [same j]
  exact members j

theorem Counted.keep (counted : Counted call count)
    (same : changed.pc.inside = (call i).pc.inside) :
    Counted (Function.update call i changed) count := by
  apply counted.congr
  intro j
  by_cases this : j = i
  · subst this
    rw [Function.update_self, same]
  · rw [Function.update_of_ne this]

theorem Counted.enter (counted : Counted call count) (stillOpen : count ≠ noNewSubmit)
    (before : (call i).pc.inside = false) (after : changed.pc.inside = true) :
    Counted (Function.update call i changed) (count + 1) := by
  rcases counted with ⟨inside, nodup, members, counter⟩
  have absent : i ∉ inside := by
    rw [members i, before]
    simp
  refine ⟨i :: inside, List.nodup_cons.mpr ⟨absent, nodup⟩, ?_, counter.enter stillOpen i⟩
  intro j
  by_cases this : j = i
  · subst this
    simp [after]
  · rw [List.mem_cons, Function.update_of_ne this, members j]
    simp [this]

theorem Counted.leave (counted : Counted call count)
    (before : (call i).pc.inside = true) (after : changed.pc.inside = false) :
    Counted (Function.update call i changed) (count - 1) := by
  rcases counted with ⟨inside, nodup, members, counter⟩
  have present : i ∈ inside := (members i).mpr before
  refine ⟨inside.erase i, nodup.erase i, ?_, counter.leave present⟩
  intro j
  rw [nodup.mem_erase_iff]
  by_cases this : j = i
  · subst this
    simp [after]
  · rw [Function.update_of_ne this, members j]
    simp [this]

theorem Counted.close (counted : Counted call count) (unused : count = 0) :
    Counted call noNewSubmit := by
  rcases counted with ⟨inside, nodup, members, counter⟩
  exact ⟨inside, nodup, members, counter.close unused⟩

end Counter

/-! ### The queues -/

/-- The invariant of the calls: an operation has one owner, and only a call
that pushed its operation loses it to `_M_accept_remote_request`, once. -/
structure Owned (config : Config) (call : Nat → Call) : Prop where
  registered : ∀ i queue op, (call i).kind = .submit queue op →
    queue ∈ config.remote ∧ (call i).pc ≠ .setStop
  distinct : ∀ i j op, (call i).holding = some op → (call j).holding = some op → i = j
  fate : ∀ i, (call i).drains = [] ∨
    ((call i).pc.pushed = true ∧ (call i).drains.length = 1)

/-- The invariant of the remote queues: the list behind each head consists of
the operations that were pushed on it and not taken since. -/
structure Queued (config : Config) (call : Nat → Call) (next : Links Addr)
    (head : Nat → Option Addr) : Prop where
  owned : Owned config call
  linking : ∀ i queue op old, (call i).kind = .submit queue op → (call i).pc = .link old →
    next op = old
  chains : ∀ queue, ∃ ops, Chain next (head queue) ops ∧
    ∀ op, op ∈ ops ↔ ∃ i, (call i).LinkedIn queue op

section Queues

variable {config : Config} {call : Nat → Call} {next : Links Addr}
  {head : Nat → Option Addr} {i queue : Nat} {op : Addr} {changed : Call}

theorem Owned.preparing (owned : Owned config call)
    (kind : (call i).kind = .submit queue op) (active : (call i).pc ≠ .idle)
    (accepted : (call i).pc ≠ .rejected) (before : (call i).pc.pushed = false) :
    (call i).holding = some op := by
  rw [Call.holding_eq_some]
  refine ⟨⟨queue, kind⟩, active, accepted, ?_⟩
  rcases owned.fate i with fresh | ⟨pushed, _⟩
  · exact fresh
  · rw [before] at pushed
    exact absurd pushed nofun

/-- The operation of a call that has not pushed it is in no queue. -/
theorem Owned.not_linked (owned : Owned config call)
    (holds : (call i).holding = some op) (before : (call i).pc.pushed = false) (other : Nat) :
    ¬ ∃ j, (call j).LinkedIn other op := by
  intro linked
  rcases linked with ⟨j, linked⟩
  have same := owned.distinct j i op linked.holding holds
  subst same
  have pushed := linked.2.1
  rw [before] at pushed
  exact absurd pushed nofun

/-- A step of a call that takes up no operation that somebody owns. -/
theorem Owned.replace (owned : Owned config call) (i : Nat)
    (owner : ∀ op, changed.holding = some op →
      (call i).holding = some op ∨ ∀ j, (call j).holding ≠ some op)
    (registered : ∀ queue op, changed.kind = .submit queue op →
      queue ∈ config.remote ∧ changed.pc ≠ .setStop)
    (fate : changed.drains = [] ∨ (changed.pc.pushed = true ∧ changed.drains.length = 1)) :
    Owned config (Function.update call i changed) := by
  have origin : ∀ j op, (Function.update call i changed j).holding = some op →
      (call j).holding = some op ∨ (j = i ∧ ∀ k, (call k).holding ≠ some op) := by
    intro j op holds
    by_cases this : j = i
    · subst this
      rw [Function.update_self] at holds
      rcases owner op holds with before | free
      · exact .inl before
      · exact .inr ⟨rfl, free⟩
    · rw [Function.update_of_ne this] at holds
      exact .inl holds
  constructor
  · intro j queue op kind
    by_cases this : j = i
    · subst this
      rw [Function.update_self] at kind ⊢
      exact registered queue op kind
    · rw [Function.update_of_ne this] at kind ⊢
      exact owned.registered j queue op kind
  · intro j k op first second
    rcases origin j op first with before | ⟨same, free⟩
    · rcases origin k op second with also | ⟨_, none⟩
      · exact owned.distinct j k op before also
      · exact absurd before (none j)
    · rcases origin k op second with also | ⟨again, _⟩
      · exact absurd also (free k)
      · rw [same, again]
  · intro j
    by_cases this : j = i
    · subst this
      rw [Function.update_self]
      exact fate
    · rw [Function.update_of_ne this]
      exact owned.fate j

theorem Owned.move (owned : Owned config call) (i : Nat) (pc : CallPc)
    (active : (call i).pc ≠ .idle) (accepted : (call i).pc ≠ .rejected)
    (notStop : pc ≠ .setStop) (drained : (call i).pc.pushed = true → pc.pushed = true) :
    Owned config (Function.update call i { call i with pc := pc }) := by
  apply owned.replace i
  · intro op holds
    left
    rw [Call.holding_eq_some] at holds ⊢
    exact ⟨holds.1, active, accepted, holds.2.2.2⟩
  · intro queue op kind
    exact ⟨(owned.registered i queue op kind).1, notStop⟩
  · rcases owned.fate i with fresh | ⟨pushed, one⟩
    · exact .inl fresh
    · exact .inr ⟨drained pushed, one⟩

theorem exists_linked_update (i : Nat) (changed : Call) (queue : Nat) (op : Addr) :
    (∃ j, (Function.update call i changed j).LinkedIn queue op) ↔
      changed.LinkedIn queue op ∨ ∃ j, j ≠ i ∧ (call j).LinkedIn queue op := by
  constructor
  · intro linked
    rcases linked with ⟨j, linked⟩
    by_cases this : j = i
    · subst this
      rw [Function.update_self] at linked
      exact .inl linked
    · rw [Function.update_of_ne this] at linked
      exact .inr ⟨j, this, linked⟩
  · intro either
    rcases either with linked | ⟨j, this, linked⟩
    · refine ⟨i, ?_⟩
      rw [Function.update_self]
      exact linked
    · refine ⟨j, ?_⟩
      rw [Function.update_of_ne this]
      exact linked

theorem exists_linked_split (i : Nat) (queue : Nat) (op : Addr) :
    (∃ j, (call j).LinkedIn queue op) ↔
      (call i).LinkedIn queue op ∨ ∃ j, j ≠ i ∧ (call j).LinkedIn queue op := by
  rw [← exists_linked_update i (call i), Function.update_eq_self]

theorem Queued.replace (queued : Queued config call next head) (i : Nat)
    (owned : Owned config (Function.update call i changed))
    (linked : ∀ queue op, changed.LinkedIn queue op ↔ (call i).LinkedIn queue op)
    (notLink : ∀ old, changed.pc ≠ .link old) :
    Queued config (Function.update call i changed) next head := by
  refine ⟨owned, ?_, ?_⟩
  · intro j queue op old kind pc
    by_cases this : j = i
    · subst this
      rw [Function.update_self] at pc
      exact absurd pc (notLink old)
    · rw [Function.update_of_ne this] at kind pc
      exact queued.linking j queue op old kind pc
  · intro queue
    rcases queued.chains queue with ⟨ops, chain, members⟩
    refine ⟨ops, chain, ?_⟩
    intro op
    rw [members op, exists_linked_update, linked, exists_linked_split i]

theorem Queued.move (queued : Queued config call next head) (i : Nat) (pc : CallPc)
    (active : (call i).pc ≠ .idle) (accepted : (call i).pc ≠ .rejected)
    (pushed : ∀ queue op, (call i).kind = .submit queue op →
      pc.pushed = (call i).pc.pushed)
    (drained : (call i).pc.pushed = true → pc.pushed = true)
    (notLink : ∀ old, pc ≠ .link old) (notStop : pc ≠ .setStop) :
    Queued config (Function.update call i { call i with pc := pc }) next head := by
  apply queued.replace i (queued.owned.move i pc active accepted notStop drained)
  · intro queue op
    unfold Call.LinkedIn
    apply and_congr_right
    intro kind
    rw [pushed queue op kind]
  · exact notLink

/-- `__p->*_Next = __old_head` writes the link of an operation in no queue. -/
theorem Queued.prepare (queued : Queued config call next head) (i : Nat)
    (kind : (call i).kind = .submit queue op) (active : (call i).pc ≠ .idle)
    (accepted : (call i).pc ≠ .rejected) (before : (call i).pc.pushed = false)
    (old : Option Addr) :
    Queued config (Function.update call i { call i with pc := .link old })
      (Function.update next op old) head := by
  have holds := queued.owned.preparing kind active accepted before
  refine ⟨queued.owned.move i (.link old) active accepted nofun ?_, ?_, ?_⟩
  · intro pushed
    rw [before] at pushed
    exact absurd pushed nofun
  · intro j other target seen same pc
    by_cases this : j = i
    · subst this
      rw [Function.update_self] at same pc
      have both := CallKind.submit.inj (kind.symm.trans same)
      rw [← both.2, Function.update_self]
      exact CallPc.link.inj pc
    · rw [Function.update_of_ne this] at same pc
      have theirs : (call j).holding = some target :=
        queued.owned.preparing same (by rw [pc]; nofun) (by rw [pc]; nofun) (by rw [pc]; rfl)
      have different : target ≠ op := by
        intro equal
        rw [equal] at theirs
        exact this (queued.owned.distinct j i op theirs holds)
      rw [Function.update_of_ne different]
      exact queued.linking j other target seen same pc
  · intro other
    rcases queued.chains other with ⟨ops, chain, members⟩
    have outside : op ∉ ops := by
      rw [members op]
      exact queued.owned.not_linked holds before other
    refine ⟨ops, chain.update old outside, ?_⟩
    intro target
    rw [members target, exists_linked_update, exists_linked_split i]
    apply or_congr_left
    unfold Call.LinkedIn
    rw [before]
    simp [CallPc.pushed]

/-- The compare-exchange of `_M_push_front` puts the operation in front of the
list it linked it to. -/
theorem Queued.push (queued : Queued config call next head) (i : Nat)
    (kind : (call i).kind = .submit queue op) {old : Option Addr}
    (pc : (call i).pc = .link old) (unchanged : head queue = old) :
    Queued config (Function.update call i { call i with pc := .release }) next
      (Function.update head queue (some op)) := by
  have active : (call i).pc ≠ .idle := by rw [pc]; nofun
  have accepted : (call i).pc ≠ .rejected := by rw [pc]; nofun
  have holds := queued.owned.preparing kind active accepted (by rw [pc]; rfl)
  have fresh := (Call.holding_eq_some.mp holds).2.2.2
  have linked := queued.linking i queue op old kind pc
  refine ⟨queued.owned.move i .release active accepted nofun fun _ => rfl, ?_, ?_⟩
  · intro j other target seen same position
    by_cases this : j = i
    · subst this
      rw [Function.update_self] at position
      exact absurd position nofun
    · rw [Function.update_of_ne this] at same position
      exact queued.linking j other target seen same position
  · intro other
    rcases queued.chains other with ⟨ops, chain, members⟩
    have before : ∀ target, ¬ (call i).LinkedIn other target := by
      intro target link
      have pushed := link.2.1
      rw [pc] at pushed
      exact absurd pushed nofun
    have after : ∀ target, ({ call i with pc := .release } : Call).LinkedIn other target ↔
        other = queue ∧ target = op := by
      intro target
      constructor
      · intro link
        have both := CallKind.submit.inj (kind.symm.trans link.1)
        exact ⟨both.1.symm, both.2.symm⟩
      · intro both
        rw [both.1, both.2]
        exact ⟨kind, rfl, fresh⟩
    have others : ∀ target, (∃ j, (Function.update call i
        { call i with pc := .release } j).LinkedIn other target) ↔
        (other = queue ∧ target = op) ∨ target ∈ ops := by
      intro target
      rw [exists_linked_update, after, members, exists_linked_split i]
      simp [before target]
    by_cases this : other = queue
    · subst this
      refine ⟨op :: ops, ?_, ?_⟩
      · rw [Function.update_self]
        refine ⟨rfl, ?_⟩
        rw [linked, ← unchanged]
        exact chain
      · intro target
        rw [others target, List.mem_cons]
        simp
    · refine ⟨ops, ?_, ?_⟩
      · rw [Function.update_of_ne this]
        exact chain
      · intro target
        rw [others target]
        simp [this]

/-- Of the calls, those linked in the queue lose their operation. -/
theorem Owned.take_cases (owned : Owned config call) {taken : List Addr}
    (members : ∀ op, op ∈ taken ↔ ∃ i, (call i).LinkedIn queue op) (index i : Nat) :
    (∃ op, (call i).LinkedIn queue op ∧ ((call i).take index taken).drains = [index]) ∨
      ((∀ op, ¬ (call i).LinkedIn queue op) ∧ (call i).take index taken = call i) := by
  by_cases this : ∃ op, (call i).LinkedIn queue op
  · rcases this with ⟨op, linked⟩
    have member := (members op).mpr ⟨i, linked⟩
    exact .inl ⟨op, linked, Call.take_of_holding index linked.holding member⟩
  · have unlinked := not_exists.mp this
    refine .inr ⟨unlinked, Call.take_of_not_holding index ?_⟩
    intro op member holds
    rcases (members op).mp member with ⟨j, linked⟩
    have same := owned.distinct j i op linked.holding holds
    subst same
    exact unlinked op linked

/-- What a call still owns, it owned before, in another queue. -/
theorem Owned.take_holding (owned : Owned config call) {taken : List Addr}
    (members : ∀ op, op ∈ taken ↔ ∃ i, (call i).LinkedIn queue op) (index i : Nat)
    (fresh : ((call i).take index taken).drains = []) :
    (∀ op, ¬ (call i).LinkedIn queue op) ∧ (call i).take index taken = call i := by
  rcases owned.take_cases members index i with ⟨_, _, lost⟩ | kept
  · rw [lost] at fresh
    exact absurd fresh nofun
  · exact kept

theorem Owned.take (owned : Owned config call) {taken : List Addr}
    (members : ∀ op, op ∈ taken ↔ ∃ i, (call i).LinkedIn queue op) (index : Nat) :
    Owned config fun i => (call i).take index taken := by
  have holds : ∀ i op, ((call i).take index taken).holding = some op →
      (call i).holding = some op := by
    intro i op also
    have fresh := (Call.holding_eq_some.mp also).2.2.2
    rw [(owned.take_holding members index i fresh).2] at also
    exact also
  constructor
  · intro i other op kind
    rw [Call.take_kind] at kind
    rw [Call.take_pc]
    exact owned.registered i other op kind
  · intro i j op first second
    exact owned.distinct i j op (holds i op first) (holds j op second)
  · intro i
    rw [Call.take_pc]
    rcases owned.take_cases members index i with ⟨op, linked, lost⟩ | ⟨_, same⟩
    · rw [lost]
      exact .inr ⟨linked.2.1, rfl⟩
    · rw [same]
      exact owned.fate i

/-- What `_M_pop_swap_reversed` takes: the operations linked in the queue, each
once. -/
theorem Queued.taken (queued : Queued config call next head) {fuel : Nat} {links : Links Addr}
    {reversed : IntrusiveQueue Addr} {taken : List Addr}
    (created : IntrusiveQueue.createReversed next fuel (head queue) = some (links, reversed))
    (chain : Chain links reversed.head taken) :
    taken.Nodup ∧ (∀ op, op ∈ taken ↔ ∃ i, (call i).LinkedIn queue op) ∧
      ∀ op, op ∉ taken → links op = next op := by
  rcases queued.chains queue with ⟨ops, before, members⟩
  rcases IntrusiveQueue.createReversed_eq before created with ⟨represents, outside⟩
  have order : taken = ops.reverse := chain.unique represents.1
  refine ⟨chain.nodup, ?_, ?_⟩
  · intro op
    rw [order, List.mem_reverse]
    exact members op
  · intro op absent
    apply outside op
    rw [← List.mem_reverse, ← order]
    exact absent

theorem Owned.linked_take (owned : Owned config call) {taken : List Addr}
    (members : ∀ op, op ∈ taken ↔ ∃ i, (call i).LinkedIn queue op) (index : Nat)
    {other : Nat} (different : other ≠ queue) (op : Addr) :
    (∃ i, ((call i).take index taken).LinkedIn other op) ↔ ∃ i, (call i).LinkedIn other op := by
  constructor
  · intro linked
    rcases linked with ⟨i, linked⟩
    rw [(owned.take_holding members index i linked.2.2).2] at linked
    exact ⟨i, linked⟩
  · intro linked
    rcases linked with ⟨i, linked⟩
    refine ⟨i, ?_⟩
    rcases owned.take_cases members index i with ⟨target, mine, _⟩ | ⟨_, same⟩
    · exact absurd (CallKind.submit.inj (linked.1.symm.trans mine.1)).1 different
    · rw [same]
      exact linked

/-- `_M_pop_swap_reversed` takes the whole list of one queue. -/
theorem Queued.take (queued : Queued config call next head) {fuel : Nat} {links : Links Addr}
    {reversed : IntrusiveQueue Addr} {taken : List Addr} (index : Nat)
    (created : IntrusiveQueue.createReversed next fuel (head queue) = some (links, reversed))
    (chain : Chain links reversed.head taken) :
    Queued config (fun i => (call i).take index taken) links
      (Function.update head queue none) := by
  rcases queued.taken created chain with ⟨_, members, outside⟩
  refine ⟨queued.owned.take members index, ?_, ?_⟩
  · intro i other op old kind pc
    rw [Call.take_kind] at kind
    rw [Call.take_pc] at pc
    have owns : (call i).holding = some op :=
      queued.owned.preparing kind (by rw [pc]; nofun) (by rw [pc]; nofun) (by rw [pc]; rfl)
    have absent : op ∉ taken := by
      rw [members op]
      exact queued.owned.not_linked owns (by rw [pc]; rfl) queue
    rw [outside op absent]
    exact queued.linking i other op old kind pc
  · intro other
    by_cases this : other = queue
    · subst this
      refine ⟨[], by rw [Function.update_self]; rfl, fun op => ⟨nofun, ?_⟩⟩
      intro linked
      rcases linked with ⟨i, linked⟩
      have kept := queued.owned.take_holding members index i linked.2.2
      have before := linked
      rw [kept.2] at before
      exact absurd before (kept.1 op)
    · rcases queued.chains other with ⟨others, before, inOthers⟩
      refine ⟨others, ?_, ?_⟩
      · rw [Function.update_of_ne this]
        apply before.congr
        intro op member
        apply outside
        intro also
        rcases (inOthers op).mp member with ⟨i, theirs⟩
        rcases (members op).mp also with ⟨j, ours⟩
        have same := queued.owned.distinct i j op theirs.holding ours.holding
        subst same
        exact this (CallKind.submit.inj (theirs.1.symm.trans ours.1)).1
      · intro op
        rw [inOthers op, queued.owned.linked_take members index this]

end Queues

/-! ### The whole -/

/-- The part of `_M_run_until_stop` a position belongs to. The final part begins
with the closed counter. -/
def LoopPc.site : LoopPc → Site
  | .accept site _ => site
  | .reset site _ _ _ => site
  | .complete site _ => site
  | .submitBegin site _ => site
  | .submit site _ _ _ _ => site
  | .timers site _ _ => site
  | .syscall site _ _ => site
  | .wait site _ _ _ => site
  | .returned site _ => site
  | .thrown site _ => site
  | .finished _ => .final
  | _ => .loop

/-- The remote queues that the current `_M_accept_remote_request` has still to
visit. -/
def LoopPc.todo : LoopPc → List Nat
  | .accept _ todo => todo
  | .reset _ queue todo _ => queue :: todo
  | _ => []

/-- The remote queues that the last `_M_accept_remote_request` has still to
visit. -/
def LoopPc.unvisited (config : Config) (pc : LoopPc) : List Nat :=
  match pc.site with
  | .loop => config.remote
  | .final => pc.todo

/-- The invariant of the remote `_M_submit`. -/
structure Remote (config : Config) (s : State) : Prop where
  counted : Counted s.call s.shared.nSubmitInFlight
  queued : Queued config s.call s.shared.next s.shared.head
  closed : s.loop.pc.site = .final → s.shared.nSubmitInFlight = noNewSubmit
  emptied : ∀ queue ∈ config.remote, queue ∉ s.loop.pc.unvisited config →
    s.shared.head queue = none

/-- What most steps leave alone. -/
structure RemoteFrame (config : Config) (s next : State) : Prop where
  call : next.call = s.call
  count : next.shared.nSubmitInFlight = s.shared.nSubmitInFlight
  links : next.shared.next = s.shared.next
  head : next.shared.head = s.shared.head
  pushed : next.log.pushed = s.log.pushed
  site : next.loop.pc.site = s.loop.pc.site
  unvisited : next.loop.pc.unvisited config = s.loop.pc.unvisited config

section Steps

variable {config : Config} {s next : State} {label : Label}

theorem RemoteFrame.remote (frame : RemoteFrame config s next) (remote : Remote config s) :
    Remote config next := by
  constructor
  · rw [frame.call, frame.count]
    exact remote.counted
  · rw [frame.call, frame.links, frame.head]
    exact remote.queued
  · rw [frame.site, frame.count]
    exact remote.closed
  · rw [frame.unvisited, frame.head]
    exact remote.emptied

/-- The queues to visit depend on the part and on the current call only. -/
theorem unvisited_congr {first second : LoopPc} (site : first.site = second.site)
    (todo : first.todo = second.todo) : first.unvisited config = second.unvisited config := by
  unfold LoopPc.unvisited
  rw [site, todo]

theorem CompleteStep.remoteFrame (step : CompleteStep s label next) :
    RemoteFrame config s next := by
  have site : next.loop.pc.site = s.loop.pc.site := by cases step <;> simp [LoopPc.site, *]
  have todo : next.loop.pc.todo = s.loop.pc.todo := by cases step <;> simp [LoopPc.todo, *]
  have unvisited : next.loop.pc.unvisited config = s.loop.pc.unvisited config :=
    unvisited_congr site todo
  cases step <;> exact ⟨rfl, rfl, rfl, rfl, rfl, site, unvisited⟩

theorem SubmitStep.remoteFrame (step : SubmitStep config s label next) :
    RemoteFrame config s next := by
  have site : next.loop.pc.site = s.loop.pc.site := by cases step <;> simp [LoopPc.site, *]
  have todo : next.loop.pc.todo = s.loop.pc.todo := by cases step <;> simp [LoopPc.todo, *]
  have unvisited : next.loop.pc.unvisited config = s.loop.pc.unvisited config :=
    unvisited_congr site todo
  cases step <;> exact ⟨rfl, rfl, rfl, rfl, rfl, site, unvisited⟩

theorem TimerStep.remoteFrame (step : TimerStep config s label next) :
    RemoteFrame config s next := by
  have site : next.loop.pc.site = s.loop.pc.site := by cases step <;> simp [LoopPc.site, *]
  have todo : next.loop.pc.todo = s.loop.pc.todo := by cases step <;> simp [LoopPc.todo, *]
  have unvisited : next.loop.pc.unvisited config = s.loop.pc.unvisited config :=
    unvisited_congr site todo
  cases step <;> exact ⟨rfl, rfl, rfl, rfl, rfl, site, unvisited⟩

theorem EnterStep.remoteFrame (step : EnterStep config s label next) :
    RemoteFrame config s next := by
  have site : next.loop.pc.site = s.loop.pc.site := by cases step <;> simp [LoopPc.site, *]
  have todo : next.loop.pc.todo = s.loop.pc.todo := by cases step <;> simp [LoopPc.todo, *]
  have unvisited : next.loop.pc.unvisited config = s.loop.pc.unvisited config :=
    unvisited_congr site todo
  cases step <;> exact ⟨rfl, rfl, rfl, rfl, rfl, site, unvisited⟩

theorem KernelStep.remoteFrame (step : KernelStep config s label next) :
    RemoteFrame config s next := by
  cases step <;> exact ⟨rfl, rfl, rfl, rfl, rfl, rfl, rfl⟩

theorem Remote.goto (remote : Remote config s) (pc : LoopPc) (accepts : Nat)
    (site : pc.site = s.loop.pc.site)
    (unvisited : pc.unvisited config = s.loop.pc.unvisited config) :
    Remote config { s with loop.pc := pc, log.accepts := accepts } := by
  have frame : RemoteFrame config s { s with loop.pc := pc, log.accepts := accepts } :=
    ⟨rfl, rfl, rfl, rfl, rfl, site, unvisited⟩
  exact frame.remote remote

theorem RunStep.remote (step : RunStep config s label next) (remote : Remote config s) :
    Remote config next := by
  cases step with
  | stay pc => exact remote.goto .lock _ (by rw [pc]; rfl) (by rw [pc]; rfl)
  | exit pc => exact remote.goto .close _ (by rw [pc]; rfl) (by rw [pc]; rfl)
  | again pc => exact remote.goto (.accept .loop _) _ (by rw [pc]; rfl) (by rw [pc]; rfl)
  | close pc unused =>
      refine ⟨remote.counted.close unused, remote.queued, fun _ => rfl, ?_⟩
      intro queue registered unvisited
      exact absurd registered unvisited
  | closeRetry => exact remote
  | closed pc already =>
      refine ⟨remote.counted, remote.queued, fun _ => already, ?_⟩
      intro queue registered unvisited
      exact absurd registered unvisited

theorem AcceptStep.remote (step : AcceptStep config s label next) (remote : Remote config s) :
    Remote config next := by
  cases step with
  | load pc =>
      rename_i site queue todo
      exact remote.goto (.reset site queue todo _) _ (by rw [pc]; rfl)
        (unvisited_congr (by rw [pc]; rfl) (by rw [pc]; rfl))
  | retry pc =>
      rename_i site queue todo old
      exact remote.goto (.reset site queue todo _) _ (by rw [pc]; rfl)
        (unvisited_congr (by rw [pc]; rfl) (by rw [pc]; rfl))
  | take pc unchanged created chain =>
      rename_i site queue todo old fuel links reversed taken
      rw [← unchanged] at created
      constructor
      · exact remote.counted.congr fun j => by rw [Call.take_pc]
      · exact remote.queued.take s.log.accepts created chain
      · intro final
        apply remote.closed
        rw [pc]
        exact final
      · intro other registered visited
        have before := remote.emptied other registered
        rw [pc] at before
        show Function.update s.shared.head queue none other = none
        by_cases this : other = queue
        · rw [this, Function.update_self]
        · rw [Function.update_of_ne this]
          apply before
          cases site with
          | loop => exact visited
          | final =>
              have absent : other ∉ todo := visited
              simp [LoopPc.unvisited, LoopPc.site, LoopPc.todo, this, absent]
  | doneLoop pc => exact remote.goto .loopHead _ (by rw [pc]; rfl) (by rw [pc]; rfl)
  | doneFinal pc =>
      exact remote.goto (.submitBegin .final true) _ (by rw [pc]; rfl) (by rw [pc]; rfl)

/-- While a call is inside, the loop has not closed the counter. -/
theorem Remote.stillLoop (remote : Remote config s) (i : Nat)
    (inside : (s.call i).pc.inside = true) : s.loop.pc.site = .loop := by
  cases site : s.loop.pc.site with
  | loop => rfl
  | final =>
      have outside := remote.counted.outside (remote.closed site) i
      rw [inside] at outside
      exact absurd outside nofun

theorem unvisited_of_loop {pc : LoopPc} (site : pc.site = .loop) :
    pc.unvisited config = config.remote := by
  unfold LoopPc.unvisited
  rw [site]

/-- A step of a call that changes neither the counter nor a head. -/
theorem Remote.call (remote : Remote config s) (i : Nat) (changed : Call)
    (inside : changed.pc.inside = (s.call i).pc.inside) {links : Links Addr}
    (queued : Queued config (Function.update s.call i changed) links s.shared.head)
    (loop : next.loop = s.loop) (call : next.call = Function.update s.call i changed)
    (count : next.shared.nSubmitInFlight = s.shared.nSubmitInFlight)
    (next_ : next.shared.next = links) (head : next.shared.head = s.shared.head) :
    Remote config next := by
  constructor
  · rw [call, count]
    exact remote.counted.keep inside
  · rw [call, next_, head]
    exact queued
  · rw [loop, count]
    exact remote.closed
  · rw [loop, head]
    exact remote.emptied

theorem Remote.after (remote : Remote config s) (i : Nat) (pc : CallPc)
    (before : (s.call i).pc.pushed = true) (outside : (s.call i).pc.inside = false)
    (pushed : pc.pushed = true) (still : pc.inside = false)
    (loop : next.loop = s.loop)
    (call : next.call = Function.update s.call i { s.call i with pc := pc })
    (count : next.shared.nSubmitInFlight = s.shared.nSubmitInFlight)
    (links : next.shared.next = s.shared.next) (head : next.shared.head = s.shared.head) :
    Remote config next := by
  have queued := remote.queued.move i pc
    (fun idle => by rw [idle] at before; exact absurd before nofun)
    (fun rejected => by rw [rejected] at before; exact absurd before nofun)
    (fun _ _ _ => pushed.trans before.symm) (fun _ => pushed)
    (fun old link => by rw [link] at pushed; exact absurd pushed nofun)
    (fun stop => by rw [stop] at pushed; exact absurd pushed nofun)
  exact remote.call i { s.call i with pc := pc } (still.trans outside.symm) queued
    loop call count links head

/-- A call that has not entered tries again or gives up. -/
theorem Remote.reserving (remote : Remote config s) (i : Nat) {n : Int} (pc : CallPc)
    (before : (s.call i).pc = .reserve n) (stays : pc = .rejected ∨ ∃ m, pc = .reserve m)
    (loop : next.loop = s.loop)
    (call : next.call = Function.update s.call i { s.call i with pc := pc })
    (shared : next.shared = s.shared) : Remote config next := by
  have neither : pc.inside = false ∧ pc.pushed = false := by
    rcases stays with rfl | ⟨m, rfl⟩
    · exact ⟨rfl, rfl⟩
    · exact ⟨rfl, rfl⟩
  have queued := remote.queued.move i pc (by rw [before]; nofun) (by rw [before]; nofun)
    (fun _ _ _ => by rw [before]; exact neither.2)
    (fun pushed => by rw [before] at pushed; exact absurd pushed nofun)
    (fun old link => by rcases stays with rfl | ⟨m, rfl⟩ <;> exact absurd link nofun)
    (fun stop => by rcases stays with rfl | ⟨m, rfl⟩ <;> exact absurd stop nofun)
  exact remote.call i { s.call i with pc := pc } (by rw [before]; exact neither.1) queued
    loop call (by rw [shared]) (by rw [shared]) (by rw [shared])

/-- A call begins with an operation that nobody owns, or without one. -/
theorem Remote.begin (remote : Remote config s) (i : Nat) (changed : Call)
    (idle : (s.call i).pc = .idle) (outside : changed.pc.inside = false)
    (fresh : changed.drains = [])
    (unlinked : ∀ queue op, ¬ changed.LinkedIn queue op)
    (free : ∀ op, changed.holding = some op → ∀ j, (s.call j).holding ≠ some op)
    (registered : ∀ queue op, changed.kind = .submit queue op →
      queue ∈ config.remote ∧ changed.pc ≠ .setStop)
    (notLink : ∀ old, changed.pc ≠ .link old)
    (loop : next.loop = s.loop) (call : next.call = Function.update s.call i changed)
    (shared : next.shared = s.shared) : Remote config next := by
  have owned : Owned config (Function.update s.call i changed) :=
    remote.queued.owned.replace i (fun op holds => .inr (free op holds)) registered (.inl fresh)
  have queued : Queued config (Function.update s.call i changed) s.shared.next s.shared.head := by
    apply remote.queued.replace i owned
    · intro queue op
      constructor
      · intro linked
        exact absurd linked (unlinked queue op)
      · intro linked
        have pushed := linked.2.1
        rw [idle] at pushed
        exact absurd pushed nofun
    · exact notLink
  apply remote.call i changed ?_ queued loop call
  · rw [shared]
  · rw [shared]
  · rw [shared]
  · rw [outside, idle]
    rfl

theorem CallStep.remote (step : CallStep config s label next) (remote : Remote config s) :
    Remote config next := by
  cases step with
  | beginSubmit i queue op idle registered free =>
      apply remote.begin i { kind := .submit queue op, pc := .reserve 0 } idle rfl rfl
      · intro other target linked
        exact absurd linked.2.1 nofun
      · intro target holds j
        have same : op = target := Option.some.inj holds
        rw [← same]
        exact free j
      · intro other target kind
        have same := (CallKind.submit.inj kind).1
        exact ⟨same ▸ registered, nofun⟩
      · nofun
      · rfl
      · rfl
      · rfl
  | beginStop i idle =>
      exact remote.begin i { kind := .requestStop, pc := .setStop } idle rfl rfl
        (fun _ _ linked => absurd linked.1 nofun) nofun nofun nofun rfl rfl rfl
  | beginNotify i idle =>
      exact remote.begin i { kind := .notify, pc := .exchange } idle rfl rfl
        (fun _ _ linked => absurd linked.1 nofun) nofun nofun nofun rfl rfl rfl
  | reserve i pc stillOpen unchanged =>
      rename_i n
      have outside : (s.call i).pc.inside = false := by rw [pc]; rfl
      constructor
      · rw [← unchanged]
        exact remote.counted.enter (by rw [unchanged]; exact stillOpen) outside rfl
      · exact remote.queued.move i .loadHead (by rw [pc]; nofun) (by rw [pc]; nofun)
          (fun _ _ _ => by rw [pc]; rfl) (by rw [pc]; nofun) nofun nofun
      · intro final
        exact absurd (unchanged.symm.trans (remote.closed final)) stillOpen
      · exact remote.emptied
  | reserveRetry i pc =>
      exact remote.reserving i (.reserve s.shared.nSubmitInFlight) pc (.inr ⟨_, rfl⟩) rfl rfl rfl
  | rejectIo i kind pc => exact remote.reserving i .rejected pc (.inl rfl) rfl rfl rfl
  | rejectTimer i kind pc => exact remote.reserving i .rejected pc (.inl rfl) rfl rfl rfl
  | loadHead i kind pc =>
      rename_i queue op
      have queued := remote.queued.prepare i kind (by rw [pc]; nofun) (by rw [pc]; nofun)
        (by rw [pc]; rfl) (s.shared.head queue)
      exact remote.call i _ (by rw [pc]; rfl) queued rfl rfl rfl rfl rfl
  | linkRetry i kind pc =>
      rename_i queue op old
      have queued := remote.queued.prepare i kind (by rw [pc]; nofun) (by rw [pc]; nofun)
        (by rw [pc]; rfl) (s.shared.head queue)
      exact remote.call i _ (by rw [pc]; rfl) queued rfl rfl rfl rfl rfl
  | link i kind pc unchanged =>
      have site := remote.stillLoop i (by rw [pc]; rfl)
      constructor
      · exact remote.counted.keep (by rw [pc]; rfl)
      · exact remote.queued.push i kind pc unchanged
      · exact remote.closed
      · intro queue registered unvisited
        rw [unvisited_of_loop site] at unvisited
        exact absurd registered unvisited
  | release i pc =>
      have site := remote.stillLoop i (by rw [pc]; rfl)
      constructor
      · exact remote.counted.leave (by rw [pc]; rfl) rfl
      · exact remote.queued.move i .exchange (by rw [pc]; nofun) (by rw [pc]; nofun)
          (fun _ _ _ => by rw [pc]; rfl) (fun _ => rfl) nofun nofun
      · intro final
        exact absurd (site.symm.trans final) nofun
      · exact remote.emptied
  | setStop i pc =>
      have queued := remote.queued.move i .exchange (by rw [pc]; nofun)
        (by rw [pc]; nofun)
        (fun queue op kind => absurd pc (remote.queued.owned.registered i queue op kind).2)
        (fun _ => rfl) nofun nofun
      exact remote.call i _ (by rw [pc]; rfl) queued rfl rfl rfl rfl rfl
  | exchangeAsleep i pc =>
      exact remote.after i .lock (by rw [pc]; rfl) (by rw [pc]; rfl) rfl rfl rfl rfl rfl rfl rfl
  | exchangeAwake i pc =>
      exact remote.after i .returned (by rw [pc]; rfl) (by rw [pc]; rfl) rfl rfl
        rfl rfl rfl rfl rfl
  | lock i pc =>
      exact remote.after i .unlock (by rw [pc]; rfl) (by rw [pc]; rfl) rfl rfl rfl rfl rfl rfl rfl
  | unlock i pc =>
      exact remote.after i .write (by rw [pc]; rfl) (by rw [pc]; rfl) rfl rfl rfl rfl rfl rfl rfl
  | write i pc =>
      exact remote.after i .returned (by rw [pc]; rfl) (by rw [pc]; rfl) rfl rfl
        rfl rfl rfl rfl rfl

theorem Step.remote (step : Step config s label next) (remote : Remote config s) :
    Remote config next := by
  cases step with
  | accept step => exact step.remote remote
  | complete step => exact step.remoteFrame.remote remote
  | submit step => exact step.remoteFrame.remote remote
  | timer step => exact step.remoteFrame.remote remote
  | enter step => exact step.remoteFrame.remote remote
  | run step => exact step.remote remote
  | call step => exact step.remote remote
  | kernel step => exact step.remoteFrame.remote remote

theorem initial_remote (config : Config) (now : Int) (pending : List Addr) :
    Remote config (initial config now pending) := by
  constructor
  · exact ⟨[], List.nodup_nil, fun i => ⟨nofun, nofun⟩, ClosingCounter.empty⟩
  · refine ⟨⟨nofun, nofun, fun _ => .inl rfl⟩, nofun, ?_⟩
    intro queue
    refine ⟨[], rfl, fun op => ⟨nofun, ?_⟩⟩
    intro linked
    rcases linked with ⟨i, linked⟩
    exact absurd linked.2.1 nofun
  · nofun
  · intro queue registered unvisited
    rfl

theorem reachable_remote (reachable : (system config).Reachable s) : Remote config s := by
  apply reachable.invariant (Remote config)
  · intro state start
    rcases start with ⟨now, pending, rfl⟩
    exact initial_remote config now pending
  · intro state label next _ remote step
    exact Step.remote step remote

/-! ### The closing handshake -/

/-- The last `_M_accept_remote_request` has visited every queue. -/
def LoopPc.AcceptedLast (pc : LoopPc) : Prop := pc.site = .final ∧ pc.todo = []

theorem LoopPc.AcceptedLast.visited {pc : LoopPc} (last : pc.AcceptedLast) :
    pc.unvisited config = [] := by
  unfold LoopPc.unvisited
  rw [last.1]
  exact last.2

theorem RemoteFrame.acceptedLast (frame : RemoteFrame config s next)
    (last : s.loop.pc.AcceptedLast) : next.loop.pc.AcceptedLast := by
  have site : next.loop.pc.site = .final := frame.site.trans last.1
  have visited := frame.unvisited.trans last.visited
  unfold LoopPc.unvisited at visited
  rw [site] at visited
  exact ⟨site, visited⟩

theorem Step.acceptedLast (step : Step config s label next)
    (last : s.loop.pc.AcceptedLast) : next.loop.pc.AcceptedLast := by
  cases step with
  | accept step =>
      cases step with
      | load pc =>
          rw [pc] at last
          exact absurd last.2 nofun
      | retry pc =>
          rw [pc] at last
          exact absurd last.2 nofun
      | take pc =>
          rw [pc] at last
          exact absurd last.2 nofun
      | doneLoop pc =>
          rw [pc] at last
          exact absurd last.1 nofun
      | doneFinal pc => exact ⟨rfl, rfl⟩
  | complete step => exact (show RemoteFrame config s next from step.remoteFrame).acceptedLast last
  | submit step => exact step.remoteFrame.acceptedLast last
  | timer step => exact step.remoteFrame.acceptedLast last
  | enter step => exact step.remoteFrame.acceptedLast last
  | run step =>
      cases step with
      | closeRetry => exact last
      | stay pc =>
          rw [pc] at last
          exact absurd last.1 nofun
      | exit pc =>
          rw [pc] at last
          exact absurd last.1 nofun
      | again pc =>
          rw [pc] at last
          exact absurd last.1 nofun
      | close pc =>
          rw [pc] at last
          exact absurd last.1 nofun
      | closed pc =>
          rw [pc] at last
          exact absurd last.1 nofun
  | call step =>
      have loop : next.loop = s.loop := by cases step <;> rfl
      rw [loop]
      exact last
  | kernel step => exact step.remoteFrame.acceptedLast last

/-- The counter is closed, and call `i` has not entered. -/
def Refused (i : Nat) (s : State) : Prop :=
  s.shared.nSubmitInFlight = noNewSubmit ∧
    ((∃ n, (s.call i).pc = .reserve n) ∨ (s.call i).pc = .rejected)

/-- A call changes the counter only when it is open, and pushes only while it
is inside. -/
theorem CallStep.closed (step : CallStep config s label next) (remote : Remote config s)
    (closed : s.shared.nSubmitInFlight = noNewSubmit) :
    next.shared.nSubmitInFlight = noNewSubmit ∧ next.log.pushed = s.log.pushed := by
  have outside := remote.counted.outside closed
  cases step with
  | reserve i pc stillOpen unchanged => exact absurd (unchanged.symm.trans closed) stillOpen
  | link i kind pc =>
      have inside := outside i
      rw [pc] at inside
      exact absurd inside nofun
  | release i pc =>
      have inside := outside i
      rw [pc] at inside
      exact absurd inside nofun
  | _ => exact ⟨closed, rfl⟩

theorem Step.closed (step : Step config s label next) (remote : Remote config s)
    (closed : s.shared.nSubmitInFlight = noNewSubmit) :
    next.shared.nSubmitInFlight = noNewSubmit ∧ next.log.pushed = s.log.pushed := by
  have same : ∀ {other : State}, RemoteFrame config s other →
      other.shared.nSubmitInFlight = noNewSubmit ∧ other.log.pushed = s.log.pushed :=
    fun frame => ⟨frame.count.trans closed, frame.pushed⟩
  cases step with
  | accept step => cases step <;> exact ⟨closed, rfl⟩
  | complete step => exact same step.remoteFrame
  | submit step => exact same step.remoteFrame
  | timer step => exact same step.remoteFrame
  | enter step => exact same step.remoteFrame
  | run step =>
      cases step with
      | close => exact ⟨rfl, rfl⟩
      | _ => exact ⟨closed, rfl⟩
  | call step => exact step.closed remote closed
  | kernel step => exact same step.remoteFrame

theorem CallStep.refused {i : Nat} (step : CallStep config s label next)
    (refused : Refused i s) :
    (∃ n, (next.call i).pc = .reserve n) ∨ (next.call i).pc = .rejected := by
  rcases refused with ⟨closed, position⟩
  have other : ∀ {j : Nat} {changed : Call}, j ≠ i →
      (∃ n, (Function.update s.call j changed i).pc = .reserve n) ∨
        (Function.update s.call j changed i).pc = .rejected := by
    intro j changed this
    rw [Function.update_of_ne (Ne.symm this)]
    exact position
  have away : ∀ {j : Nat} {pc : CallPc}, (s.call j).pc = pc → (∀ n, pc ≠ .reserve n) →
      pc ≠ .rejected → j ≠ i := by
    intro j pc at_ notReserve notRejected same
    subst same
    rw [at_] at position
    rcases position with ⟨n, reserve⟩ | rejected
    · exact notReserve n reserve
    · exact notRejected rejected
  cases step with
  | beginSubmit j queue op idle => exact other (away idle nofun nofun)
  | beginStop j idle => exact other (away idle nofun nofun)
  | beginNotify j idle => exact other (away idle nofun nofun)
  | reserve j pc stillOpen unchanged => exact absurd (unchanged.symm.trans closed) stillOpen
  | reserveRetry j pc =>
      by_cases this : j = i
      · subst this
        exact .inl ⟨_, congrArg Call.pc (Function.update_self j _ s.call)⟩
      · exact other this
  | rejectIo j kind pc =>
      by_cases this : j = i
      · subst this
        exact .inr (congrArg Call.pc (Function.update_self j _ s.call))
      · exact other this
  | rejectTimer j kind pc =>
      by_cases this : j = i
      · subst this
        exact .inr (congrArg Call.pc (Function.update_self j _ s.call))
      · exact other this
  | loadHead j kind pc => exact other (away pc nofun nofun)
  | linkRetry j kind pc => exact other (away pc nofun nofun)
  | link j kind pc => exact other (away pc nofun nofun)
  | release j pc => exact other (away pc nofun nofun)
  | setStop j pc => exact other (away pc nofun nofun)
  | exchangeAsleep j pc => exact other (away pc nofun nofun)
  | exchangeAwake j pc => exact other (away pc nofun nofun)
  | lock j pc => exact other (away pc nofun nofun)
  | unlock j pc => exact other (away pc nofun nofun)
  | write j pc => exact other (away pc nofun nofun)

theorem Step.refused {i : Nat} (step : Step config s label next) (remote : Remote config s)
    (refused : Refused i s) : Refused i next := by
  refine ⟨(Step.closed step remote refused.1).1, ?_⟩
  have kept : next.call = s.call →
      (∃ n, (next.call i).pc = .reserve n) ∨ (next.call i).pc = .rejected := by
    intro same
    rw [same]
    exact refused.2
  cases step with
  | accept step =>
      cases step with
      | take => simpa using refused.2
      | _ => exact kept rfl
  | complete step => exact kept (show RemoteFrame config s next from step.remoteFrame).call
  | submit step => exact kept step.remoteFrame.call
  | timer step => exact kept step.remoteFrame.call
  | enter step => exact kept step.remoteFrame.call
  | run step => cases step <;> exact kept rfl
  | call step => exact step.refused refused
  | kernel step => exact kept step.remoteFrame.call

/-- What the handshake between the remote `_M_submit` and the end of
`_M_run_until_stop` guarantees. -/
structure ClosingHandshake (config : Config) (s : State) : Prop where
  stays : s.shared.nSubmitInFlight = noNewSubmit →
    ∀ later, (system config).Continues s later →
      later.shared.nSubmitInFlight = noNewSubmit ∧ later.log.pushed = s.log.pushed
  emptied : s.loop.pc.AcceptedLast → ∀ later, (system config).Continues s later →
    ∀ queue ∈ config.remote, later.shared.head queue = none
  /-- An accept takes exactly the operations pushed and not yet taken, each once. -/
  takes : ∀ queue fuel links reversed taken,
    IntrusiveQueue.createReversed s.shared.next fuel (s.shared.head queue) =
        some (links, reversed) →
      Chain links reversed.head taken →
        taken.Nodup ∧ (∀ op, op ∈ taken ↔ ∃ i, (s.call i).LinkedIn queue op) ∧
          ∀ i op, ¬ ((s.call i).take s.log.accepts taken).LinkedIn queue op
  once : ∀ i, (s.call i).drains.length ≤ 1 ∧
    ((s.call i).pc = .rejected → (s.call i).drains = [])
  settled : s.loop.pc.AcceptedLast → ∀ i queue op, (s.call i).kind = .submit queue op →
    (s.call i).pc ≠ .idle →
      (∃ n, (s.call i).pc = .reserve n) ∨
      ((s.call i).pc = .rejected ∧ (s.call i).drains = []) ∨
      ((s.call i).pc.pushed = true ∧ (s.call i).drains.length = 1)
  refused : s.shared.nSubmitInFlight = noNewSubmit → ∀ i n, (s.call i).pc = .reserve n →
    ∀ later, (system config).Continues s later →
      (∃ m, (later.call i).pc = .reserve m) ∨ (later.call i).pc = .rejected

/-- After the last visit, a call that pushed its operation has lost it. -/
theorem Remote.drained (remote : Remote config s) (last : s.loop.pc.AcceptedLast)
    {i queue : Nat} {op : Addr} (kind : (s.call i).kind = .submit queue op)
    (pushed : (s.call i).pc.pushed = true) : (s.call i).drains.length = 1 := by
  rcases remote.queued.owned.fate i with fresh | ⟨_, one⟩
  · have registered := (remote.queued.owned.registered i queue op kind).1
    have empty : s.shared.head queue = none := by
      apply remote.emptied queue registered
      rw [last.visited]
      exact List.not_mem_nil
    rcases remote.queued.chains queue with ⟨ops, chain, members⟩
    rw [empty] at chain
    have member : op ∈ ops := (members op).mpr ⟨i, kind, pushed, fresh⟩
    rw [chain.of_none] at member
    exact absurd member List.not_mem_nil
  · exact one

/-- In every run the handshake holds, whatever the calls and their
interleaving. -/
theorem closingHandshake (config : Config) (s : State)
    (reachable : (system config).Reachable s) : ClosingHandshake config s := by
  have remote := reachable_remote reachable
  constructor
  · intro closed later run
    have keeps := run.invariant
      (fun state => state.shared.nSubmitInFlight = noNewSubmit ∧ state.log.pushed = s.log.pushed)
      (fun state label next earlier holds step => by
        have still := Step.closed step (reachable_remote earlier) holds.1
        exact ⟨still.1, still.2.trans holds.2⟩)
      reachable ⟨closed, rfl⟩
    exact keeps
  · intro last later run queue registered
    have still := run.invariant (fun state => state.loop.pc.AcceptedLast)
      (fun _ _ _ _ holds step => Step.acceptedLast step holds) reachable last
    apply (reachable_remote (reachable.continue run)).emptied queue registered
    rw [still.visited]
    exact List.not_mem_nil
  · intro queue fuel links reversed taken created chain
    have taking := remote.queued.taken created chain
    refine ⟨taking.1, taking.2.1, ?_⟩
    intro i op linked
    have kept := remote.queued.owned.take_holding taking.2.1 s.log.accepts i linked.2.2
    rw [kept.2] at linked
    exact kept.1 op linked
  · intro i
    rcases remote.queued.owned.fate i with fresh | ⟨pushed, one⟩
    · rw [fresh]
      exact ⟨Nat.zero_le _, fun _ => rfl⟩
    · refine ⟨le_of_eq one, fun rejected => ?_⟩
      rw [rejected] at pushed
      exact absurd pushed nofun
  · intro last i queue op kind active
    have outside := remote.counted.outside (remote.closed last.1) i
    have notStop := (remote.queued.owned.registered i queue op kind).2
    have drained := remote.drained last kind
    have fate := remote.queued.owned.fate i
    cases pc : (s.call i).pc with
    | idle => exact absurd pc active
    | reserve n => exact .inl ⟨n, rfl⟩
    | loadHead =>
        rw [pc] at outside
        exact absurd outside nofun
    | link old =>
        rw [pc] at outside
        exact absurd outside nofun
    | setStop => exact absurd pc notStop
    | rejected =>
        rw [pc] at fate
        exact .inr (.inl ⟨rfl, fate.resolve_right fun pushed => absurd pushed.1 nofun⟩)
    | _ =>
        rw [pc] at drained
        exact .inr (.inr ⟨rfl, drained rfl⟩)
  · intro closed i n pc later run
    have refused := run.invariant (Refused i)
      (fun _ _ _ earlier holds step => Step.refused step (reachable_remote earlier) holds)
      reachable ⟨closed, .inl ⟨n, pc⟩⟩
    exact refused.2

/-- Two submissions race with the end of the small scheduler: the first is
taken by the last `_M_accept_remote_request`, the second is rejected. -/
theorem closingHandshake_race :
    ∃ s, (system small).Reachable s ∧ s.loop.pc.AcceptedLast ∧ (s.call 0).drains = [1] ∧
      (s.call 1).pc = .rejected ∧ s.loop.ioPending = [5] ∧ ClosingHandshake small s := by
  have quiet := lenient_true.quiet
  have start : ((system small).restrict fun _ _ => True).Reachable (initial small 0 []) :=
    .init ⟨0, [], rfl⟩
  have accepted := accept_empty quiet (accept_empty quiet start rfl rfl) rfl rfl
  have head := accepted.step ⟨trivial, .accept (.doneLoop rfl)⟩
  have pass := head.step ⟨trivial, .complete (.begin rfl)⟩
  have drained := pass.step ⟨trivial, .complete (.doneLoop rfl rfl)⟩
  have stop := drained.step ⟨trivial, .submit (.stopLoad rfl)⟩
  have submitting := stop.step ⟨trivial, .submit (.begin rfl)⟩
  have added := submitting.step ⟨trivial, .submit (.done rfl (.inl rfl))⟩
  have tested := added.step ⟨trivial, .timer (.doneLoop rfl)⟩
  have left := tested.step ⟨trivial, .run (.exit rfl (by decide))⟩
  have begun := left.step ⟨trivial, .call (.beginSubmit 0 0 5 rfl (by decide) nofun)⟩
  have reserved := begun.step ⟨trivial, .call (.reserve 0 rfl (by decide) rfl)⟩
  have refused := reserved.step ⟨trivial, .run (.closeRetry rfl (by decide))⟩
  have loaded := refused.step ⟨trivial, .call (.loadHead 0 rfl rfl)⟩
  have linked := loaded.step ⟨trivial, .call (.link 0 rfl rfl rfl)⟩
  have released := linked.step ⟨trivial, .call (.release 0 rfl)⟩
  have closed := released.step ⟨trivial, .run (.close rfl rfl)⟩
  have free : ∀ j, (Function.update (fun _ => ({} : Call)) 0
      { kind := .submit 0 5, pc := .exchange } j).holding ≠ some 6 :=
    Call.free_update (fun _ => by decide) 0 _ (by decide)
  simp only [Function.update_idem, Function.update_self] at closed
  have late := closed.step ⟨trivial, .call (.beginSubmit 1 0 6 rfl (by decide) free)⟩
  have failed := late.step ⟨trivial, .call (.reserveRetry 1 rfl (by decide))⟩
  have rejected := failed.step ⟨trivial, .call (.rejectIo 1 rfl rfl (by decide))⟩
  rcases accept_take quiet rejected rfl [5] ⟨rfl, rfl⟩ with ⟨links, taken⟩
  have visited := accept_empty quiet taken rfl rfl
  have last := visited.step ⟨trivial, .accept (.doneFinal rfl)⟩
  exact ⟨_, last.of_restrict, ⟨rfl, rfl⟩, rfl, rfl, rfl,
    closingHandshake small _ last.of_restrict⟩

end Steps

end NgrCore.Scheduler
