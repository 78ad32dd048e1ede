import NgrCore.MemoryResource.Placement

/-!
Owns the ring of the pool and the queues of the threads along the runs that keep them in order:
every batch has `__T_` blocks, a queue has at most as many and `__count_` counts them, and only
the entry at head is partly filled.
-/

namespace NgrCore.MemoryResource

open NgrCore.RemoteSource
open NgrCore.LocalSource (Move Pc Source)

section Definitions

/-- The entry in which a call is about to reserve places. -/
def reserving : Call → Option Nat
  | .push _ (.reserve e _) => some e
  | .prepend _ _ (.reserve e _) => some e
  | _ => none

/-- What is known of the queue of a thread. -/
structure Stocked (pc : Pc) (source : Source) : Prop where
  count : source.count = BitVec.ofNat 32 source.queue.length
  bounded : source.queue.length ≤ T
  empty : ∀ n, pc = .popping n → source.queue = []
  fresh : source.consume = none → source.bump = 4096

variable {Thread : Type}

/-- The ring with the calls of the threads. -/
def State.calls (s : State Thread) : RemoteSource.State Thread where
  ring := s.ring
  call t := (s.remote t).call

variable [DecidableEq Thread]

/-- The steps that keep the pool in order: exits lose no block, batches are published as they
should be, and places are reserved in the entry at head. -/
structure Tidy (s : State Thread) (label : Thread × Action) : Prop where
  exits : SparesExit s label
  orderly : ∀ action, label.2 = .ring action → Orderly s.calls (label.1, action)
  current : label.2 = .ring .reserve → ∀ e, reserving (s.remote label.1).call = some e →
    e = slot s.ring.head
  roomy : Roomy s label

variable [Fintype Thread]

structure Ordered (s : State Thread) : Prop where
  ring : Inv s.calls
  untouched : ∀ e, e ≠ slot s.ring.head → (s.ring.entry e).n = 0 ∨ (s.ring.entry e).n = T
  returned : ∀ t spin batch, s.remote t = .pop spin (.returned batch) →
    batch = [] ∨ batch.length = T
  stocked : ∀ t, Stocked (s.heap.pc t) (s.heap.source t)
  mapped : s.mapped.length ≤ N

end Definitions

section Queues

variable {source : Source} {n : Nat} {blk : Addr}

theorem queue_of_proceed {m : Nat} (popping : source.proceed n = .popping m) :
    source.queue = [] := by
  unfold Source.proceed at popping
  split at popping
  next empty => exact empty
  next => cases popping

theorem queue_of_enter {m : Nat} (popping : source.enter n = .popping m) :
    source.queue = [] := by
  unfold Source.enter at popping
  split at popping
  · cases popping
  · split at popping
    · exact queue_of_proceed popping
    · cases popping

theorem queue_of_resume {resume : Option Nat} {m : Nat}
    (popping : source.resume resume = .popping m) : source.queue = [] := by
  cases resume with
  | none => cases popping
  | some n => exact queue_of_proceed popping

/-- `__count_` is below the limit exactly if there is room in the queue. -/
theorem Stocked.count_lt {pc : Pc} (stocked : Stocked pc source) :
    source.count < BitVec.ofNat 32 T ↔ source.queue.length < T := by
  have bounded := stocked.bounded
  have limit : T = 16 := rfl
  rw [stocked.count, BitVec.lt_def, BitVec.toNat_ofNat, BitVec.toNat_ofNat,
    Nat.mod_eq_of_lt (by omega), Nat.mod_eq_of_lt (by omega)]

theorem Stocked.stay {pc other : Pc} (stocked : Stocked pc source)
    (empty : ∀ n, other = .popping n → source.queue = []) : Stocked other source :=
  ⟨stocked.count, stocked.bounded, empty, stocked.fresh⟩

variable {Thread : Type} [DecidableEq Thread] {s after : LocalSource.State Thread} {t : Thread}
  {action : LocalSource.Action}

theorem Stocked.recycle (stocked : Stocked (s.pc t) (s.source t)) (resume : Option Nat) :
    Stocked ((s.recycle t blk resume).pc t) ((s.recycle t blk resume).source t) := by
  unfold LocalSource.State.recycle
  dsimp only
  split
  next below =>
    have room := stocked.count_lt.mp below
    simp only [LocalSource.State.go, LocalSource.State.setSource, Function.update_self]
    refine ⟨?_, room, fun n popping => queue_of_resume popping, stocked.fresh⟩
    change (s.source t).count + 1 = BitVec.ofNat 32 ((s.source t).queue.length + 1)
    rw [stocked.count, BitVec.ofNat_add]
    rfl
  next =>
    simp only [LocalSource.State.go, Function.update_self]
    exact stocked.stay fun _ popping => by cases popping

/-- A thread stays stocked with every step, if it is handed full batches. -/
theorem Stocked.move (stocked : Stocked (s.pc t) (s.source t)) (move : Move s t action after)
    (full : ∀ batch, action = .refill batch → batch.length = T) :
    Stocked (after.pc t) (after.source t) := by
  cases move with
  | acquire free =>
      simp only [LocalSource.State.go, Function.update_self]
      exact stocked.stay fun _ popping => queue_of_enter popping
  | dropLast pc owned last => exact Stocked.recycle (s := s.addUse _ (-1)) stocked _
  | drop pc owned shared =>
      simp only [LocalSource.State.go, LocalSource.State.addUse, Function.update_self]
      exact stocked.stay fun _ popping => queue_of_proceed popping
  | give pc =>
      simp only [LocalSource.State.go, Function.update_self]
      exact stocked.stay fun _ popping => queue_of_resume popping
  | @refill n batch pc some =>
      have length := full batch rfl
      have empty := stocked.empty n pc
      have count := stocked.count
      simp only [LocalSource.State.go, LocalSource.State.setSource, Function.update_self]
      rw [empty] at count
      refine ⟨?_, ?_, fun _ popping => (by cases popping), stocked.fresh⟩
      · change (s.source t).count + BitVec.ofNat 32 T =
          BitVec.ofNat 32 (batch ++ (s.source t).queue).length
        rw [count, empty, List.append_nil, length]
        rfl
      · change (batch ++ (s.source t).queue).length ≤ T
        rw [empty, List.append_nil, length]
  | @consume n blk rest pc queue =>
      have count := stocked.count
      have bounded := stocked.bounded
      rw [queue] at count bounded
      simp only [LocalSource.State.go, LocalSource.State.addUse, LocalSource.State.setSource,
        Function.update_self]
      refine ⟨?_, Nat.le_of_succ_le bounded, fun _ popping => (by cases popping),
        fun none => (by cases none)⟩
      change (s.source t).count - 1 = BitVec.ofNat 32 rest.length
      rw [count, List.length_cons, BitVec.ofNat_add]
      exact BitVec.add_sub_cancel _ _
  | take pc owned =>
      simp only [LocalSource.State.acquired, LocalSource.State.go, LocalSource.State.addUse,
        LocalSource.State.setSource, Function.update_self]
      refine ⟨stocked.count, stocked.bounded, fun _ popping => (by cases popping), fun none => ?_⟩
      cases none.symm.trans owned
  | releaseLast free held last =>
      exact Stocked.recycle (s := { s with live := _ }.addUse _ (-1)) stocked _
  | release free held shared => exact stocked
  | exitOwner free owned | exit free owned =>
      simp only [LocalSource.State.go, LocalSource.State.setSource, Function.update_self]
      exact ⟨rfl, Nat.zero_le _, fun _ popping => (by cases popping), fun _ => rfl⟩

end Queues

section Ring

variable {ring : Ring}

theorem advance_head (ring : Ring) :
    ({ ring with state := ring.state + tailStride }).head = ring.head := by
  have word : ring.state + tailStride = packed ring.head.toNat (ring.tail.toNat + 1) := by
    rw [← packed_pop, ← ring.state_eq]
  rw [Ring.head, word, convert_packed]
  simp

variable {Thread : Type} [Fintype Thread] [DecidableEq Thread] {s : RemoteSource.State Thread}
  {t : Thread} {action : RemoteSource.Action} {next : Ring} {call : Call}

/-- A call that publishes an entry has found its counter at the limit. -/
theorem counter_of_publishes (inv : Inv s) {e : Nat}
    (known : (s.call t).role e = { publishes := true }) : (s.ring.entry e).n = T := by
  obtain ⟨_, filling⟩ := (inv.phase e).filling_of_role known (.inr rfl)
  rcases filling.publisher with ⟨counter, _⟩ | ⟨_, nobody⟩
  · exact counter
  · have silent := nobody t
    rw [known] at silent
    cases silent

/-- The entries that are not at head stay empty or full. -/
theorem untouched_publish (inv : Inv s) {e : Nat} (here : e = slot s.ring.head)
    (known : (s.call t).role e = { publishes := true })
    (untouched : ∀ f, f ≠ slot s.ring.head → (s.ring.entry f).n = 0 ∨ (s.ring.entry f).n = T)
    (f : Nat) : (s.ring.publish.entry f).n = 0 ∨ (s.ring.publish.entry f).n = T := by
  by_cases atHead : f = slot s.ring.head
  · exact .inr ((atHead.trans here.symm) ▸ counter_of_publishes inv known)
  · exact untouched f atHead

theorem untouched_move (inv : Inv s) (move : RemoteSource.Move s.ring (s.call t) action next call)
    (orderly : Orderly s (t, action))
    (current : action = .reserve → ∀ e, reserving (s.call t) = some e → e = slot s.ring.head)
    (untouched : ∀ e, e ≠ slot s.ring.head → (s.ring.entry e).n = 0 ∨ (s.ring.entry e).n = T)
    (e : Nat) (apart : e ≠ slot next.head) : (next.entry e).n = 0 ∨ (next.entry e).n = T := by
  have elsewhere {f n : Nat} (reserves : reserving (s.call t) = some f)
      (reserve : action = .reserve) (away : e ≠ slot s.ring.head) :
      ((s.ring.setN f n).entry e).n = 0 ∨ ((s.ring.setN f n).entry e).n = T := by
    have here := current reserve f reserves
    rw [setN_n, if_neg fun same => away (same.trans here)]
    exact untouched e away
  cases known : s.call t with
  | push blk pc =>
      rw [known] at move
      cases move with
      | push move =>
          cases move with
          | reserve => exact elsewhere (by rw [known]; rfl) rfl apart
          | link =>
              rw [setBlocks_n]
              exact untouched e apart
          | publish =>
              obtain ⟨here, _, _⟩ := orderly.publishes rfl _ (by rw [known]; rfl)
              refine untouched_publish inv (t := t) here ?_ untouched e
              rw [known]
              exact Role.within_self _ _
          | _ => exact untouched e apart
  | prepend ptr k pc =>
      rw [known] at move
      cases move with
      | prepend move =>
          cases move with
          | reserve => exact elsewhere (by rw [known]; rfl) rfl apart
          | link =>
              rw [setBlocks_n]
              exact untouched e apart
          | publish =>
              obtain ⟨here, _, _⟩ := orderly.publishes rfl _ (by rw [known]; rfl)
              refine untouched_publish inv (t := t) here ?_ untouched e
              rw [known]
              exact Role.within_self _ _
          | _ => exact untouched e apart
  | tryPop pc =>
      rw [known] at move
      cases move with
      | tryPop move =>
          cases move with
          | advance available expected =>
              rw [← expected, advance_head] at apart
              exact untouched e apart
          | detach =>
              rw [setBlocks_n]
              exact untouched e apart
          | reset =>
              change ((s.ring.setN _ 0).entry e).n = 0 ∨ ((s.ring.setN _ 0).entry e).n = T
              rw [setN_n]
              split
              · exact .inl rfl
              · exact untouched e apart
          | _ => exact untouched e apart
  | returned batch =>
      rw [known] at move
      cases move

theorem returned_move (inv : Inv { ring := next, call := Function.update s.call t call })
    {before : Call} (move : RemoteSource.Move s.ring before action next call)
    (batch : List Addr) (returned : call = .returned batch) : batch = [] ∨ batch.length = T := by
  cases move with
  | push move =>
      cases move with
      | link =>
          split at returned
          · cases returned
          · cases returned
            exact .inl rfl
      | publish =>
          cases returned
          exact .inl rfl
      | load | full | read | retry | reserve | front | relink => cases returned
  | prepend move =>
      cases move with
      | publish =>
          unfold Call.prependFrom at returned
          split at returned
          · cases returned
            exact .inl rfl
          · cases returned
      | retry | reserve =>
          repeat' split at returned
          all_goals cases returned
      | load | full | read | reload | front | relink | link => cases returned
  | tryPop move =>
      cases move with
      | empty =>
          cases returned
          exact .inl rfl
      | reset =>
          cases returned
          exact .inr (inv.popped _ (List.mem_append_right _ (List.mem_singleton_self _)))
      | load | retry | advance | take | retake | detach => cases returned

end Ring

section Steps

variable {Thread : Type} [DecidableEq Thread] {s after : State Thread} {t : Thread}
  {remote : Remote}

theorem calls_go (ring : Ring) (remotes : after.remote = Function.update s.remote t remote)
    (here : after.ring = ring) :
    after.calls = { ring := ring, call := Function.update s.calls.call t remote.call } := by
  unfold State.calls
  rw [here, remotes]
  congr 1
  funext u
  simp only [Function.update_apply]
  split <;> rfl

variable [Fintype Thread]

theorem Ordered.stay (ordered : Ordered s)
    (remotes : after.remote = Function.update s.remote t remote) (ring : after.ring = s.ring)
    (role : remote.call.role = (s.remote t).call.role) (sound : remote.call.Sound)
    (returned : ∀ spin batch, remote = .pop spin (.returned batch) → batch = [])
    (stocked : ∀ u, Stocked (after.heap.pc u) (after.heap.source u))
    (mapped : after.mapped.length ≤ N) : Ordered after := by
  refine ⟨?_, ?_, fun u spin batch here => ?_, stocked, mapped⟩
  · rw [calls_go s.ring remotes ring]
    exact ordered.ring.stay role sound
  · rw [ring]
    exact ordered.untouched
  · rw [remotes, Function.update_apply] at here
    split at here
    · exact .inl (returned spin batch here)
    · exact ordered.returned u spin batch here

theorem Ordered.call (ordered : Ordered s) {action : RemoteSource.Action} {next : Ring}
    (move : RemoteSource.Move s.ring (s.remote t).call action next remote.call)
    (tidy : Tidy s (t, .ring action)) : Ordered ({ s with ring := next }.go t remote) := by
  have orderly := tidy.orderly action rfl
  have step : RemoteSource.Step s.calls (t, action)
      { ring := next, call := Function.update s.calls.call t remote.call } := .move move
  have ring := ordered.ring.step orderly step
  refine ⟨?_, ?_, fun u spin batch here => ?_, ordered.stocked, ordered.mapped⟩
  · rw [calls_go next rfl rfl]
    exact ring
  · refine untouched_move ordered.ring move orderly (fun reserve => ?_) ordered.untouched
    exact tidy.current (congrArg Action.ring reserve)
  · change Function.update s.remote t remote u = .pop spin (.returned batch) at here
    rw [Function.update_apply] at here
    split at here
    · rw [here] at move ring
      exact returned_move ring move batch rfl
    · exact ordered.returned u spin batch here

omit [Fintype Thread] in
theorem Stocked.others (stocked : ∀ u, Stocked (s.heap.pc u) (s.heap.source u))
    {action : LocalSource.Action} {heap : LocalSource.State Thread}
    (move : Move s.heap t action heap)
    (full : ∀ batch, action = .refill batch → batch.length = T) (u : Thread) :
    Stocked (heap.pc u) (heap.source u) := by
  by_cases mine : u = t
  · rw [mine]
    exact (stocked t).move move full
  · rw [(move.others u mine).1, (move.others u mine).2]
    exact stocked u

theorem Ordered.step (ordered : Ordered s) {action : Action}
    (step : Act s t action after) (tidy : Tidy s (t, action)) : Ordered after := by
  cases step with
  | thread idle own move =>
      have same := (Function.update_eq_self t s.remote).symm
      refine ordered.stay same rfl rfl (by rw [idle]; trivial) (by rw [idle]; nofun) ?_
        ordered.mapped
      refine Stocked.others ordered.stocked move fun batch refill => ?_
      exact absurd (refill ▸ own) nofun
  | beginPop pc idle =>
      exact ordered.stay rfl rfl (by rw [idle]; rfl) trivial nofun ordered.stocked ordered.mapped
  | tryPop pc move => exact ordered.call (by rw [pc]; exact move) tidy
  | refill pc some move =>
      refine ordered.stay rfl rfl (by rw [pc]; rfl) trivial nofun ?_ ordered.mapped
      refine Stocked.others ordered.stocked move fun batch refill => ?_
      cases refill
      exact (ordered.returned t _ _ pc).resolve_left some
  | spin pc below =>
      exact ordered.stay rfl rfl (by rw [pc]; rfl) trivial nofun ordered.stocked ordered.mapped
  | giveUp pc reached =>
      exact ordered.stay rfl rfl (by rw [pc]; rfl) trivial nofun ordered.stocked ordered.mapped
  | @map p pc fresh =>
      refine ordered.stay rfl rfl (by rw [pc]; rfl) trivial nofun ordered.stocked ?_
      change (s.mapped ++ [p]).length ≤ N
      rw [List.length_append]
      exact tidy.roomy rfl
  | mapFailed pc =>
      exact ⟨ordered.ring, ordered.untouched, ordered.returned, ordered.stocked, ordered.mapped⟩
  | claim pc =>
      exact ordered.stay rfl rfl (by rw [pc]; rfl) trivial nofun ordered.stocked ordered.mapped
  | store pc =>
      refine ordered.stay rfl rfl ?_ ?_ nofun ordered.stocked ordered.mapped
      · rw [pc]
        rfl
      · trivial
  | prepend pc move => exact ordered.call (by rw [pc]; exact move) tidy
  | prepended pc =>
      exact ordered.stay rfl rfl (by rw [pc]; rfl) trivial nofun ordered.stocked ordered.mapped
  | beginPush pc idle =>
      exact ordered.stay rfl rfl (by rw [idle]; rfl) trivial nofun ordered.stocked ordered.mapped
  | push pc move => exact ordered.call (by rw [pc]; exact move) tidy
  | pushed pc move =>
      refine ordered.stay rfl rfl (by rw [pc]; rfl) trivial nofun ?_ ordered.mapped
      exact Stocked.others ordered.stocked move nofun

omit [DecidableEq Thread] in
theorem ordered_start : Ordered ({} : State Thread) :=
  ⟨inv_start, fun _ _ => .inl rfl, nofun, fun _ => ⟨rfl, Nat.zero_le _, nofun, fun _ => rfl⟩,
    Nat.zero_le _⟩

theorem ordered_of_tidy (reachable : ((system Thread).restrict Tidy).Reachable s) :
    Ordered s := by
  refine reachable.invariant _ ?_ ?_
  · rintro _ rfl
    exact ordered_start
  · rintro s ⟨t, action⟩ after _ ordered ⟨tidy, _, step⟩
    exact ordered.step step tidy

omit [Fintype Thread] in
theorem kept_of_tidy (reachable : ((system Thread).restrict Tidy).Reachable s) : Kept s :=
  kept_of_spared (reachable.weaken fun _ _ tidy => tidy.exits)

end Steps

end NgrCore.MemoryResource
