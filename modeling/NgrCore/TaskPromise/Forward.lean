import NgrCore.TaskPromise

/-!
Owns the lifetime of `__fwd_`. As long as only awaited tasks reach their final suspend and
no frame is destroyed between its await and its final suspend, every `__fwd_` is destroyed
exactly as often as it was constructed, and every `__source_` is destroyed without
callbacks.
-/

namespace NgrCore.TaskPromise

open NgrCore.Library

/-- The task has been awaited and has not finished, so its `__fwd_` is constructed. -/
def Promise.Awaited (promise : Promise) : Prop :=
  promise.phase = .bound ∧ promise.continuation ≠ none

/-- A task that finishes has been awaited, and a promise that is destroyed has not, or has
finished since. -/
def Proper (s : State) (event : Event) : Prop :=
  (event = .finish → ∀ c, s.running = some c → (s.promise c).continuation ≠ none) ∧
    (event = .perish → ∀ t rest, s.unwinding = t :: rest → ¬(s.promise t).Awaited)

/-- The life of every `__fwd_` and `__source_` so far. -/
structure Lifecycle (s : State) : Prop where
  once : ∀ t, (s.promise t).destroyed ≤ (s.promise t).constructed ∧ (s.promise t).constructed ≤ 1
  balanced : ∀ t, t < s.count → (s.promise t).alive = false →
    (s.promise t).destroyed = (s.promise t).constructed
  empty : ∀ source ∈ s.sources, source.2 = []
  linked : ∀ p c, c ∈ (s.promise p).callbacks → (s.promise c).alive = true

/-- What a promise says of itself. -/
def PromiseOk (promise : Promise) : Prop :=
  (promise.alive = false → ¬promise.Awaited) ∧
    match promise.phase with
    | .created => promise.constructed = 0 ∧ promise.destroyed = 0 ∧ promise.continuation = none
    | .bound => promise.destroyed = 0 ∧
        promise.constructed = if promise.continuation = none then 0 else 1
    | .finished => promise.constructed = 1 ∧ promise.destroyed = 1

/-- The callback of an awaited task is linked to the source of the coroutine that awaits it. -/
structure Linked (promise : Promise) (p : Nat) : Prop where
  alive : promise.alive = true
  bound : promise.phase = .bound
  continuation : promise.continuation = some p
  fwd : promise.fwd = some p

structure Inv (s : State) : Prop where
  unborn : ∀ t, s.count ≤ t → (s.promise t).alive = false ∧
    (s.promise t).phase = .created ∧ (s.promise t).callbacks = []
  each : ∀ t, PromiseOk (s.promise t)
  listed : ∀ p c, c ∈ (s.promise p).callbacks → Linked (s.promise c) p
  nodup : ∀ p, (s.promise p).callbacks.Nodup
  awaited : ∀ c p, (s.promise c).alive = true → (s.promise c).phase = .bound →
    (s.promise c).continuation = some p →
    (s.promise c).owner = some p ∧ (s.promise p).phase = .bound
  running : ∀ t, s.running = some t → (s.promise t).phase = .bound
  empty : ∀ source ∈ s.sources, source.2 = []

section Facts

variable {s after : State}

theorem set_self (t : Nat) (promise : Promise) : (s.set t promise).promise t = promise :=
  Function.update_self _ _ _

theorem set_of_ne {t u : Nat} (apart : u ≠ t) (promise : Promise) :
    (s.set t promise).promise u = s.promise u :=
  Function.update_of_ne apart _ _

theorem Inv.lifecycle (inv : Inv s) : Lifecycle s := by
  refine ⟨fun t => ?_, fun t _ dead => ?_, inv.empty,
    fun p c member => (inv.listed p c member).alive⟩
  · have ok := (inv.each t).2
    cases phase : (s.promise t).phase with
    | created =>
        rw [phase] at ok
        omega
    | bound =>
        rw [phase] at ok
        obtain ⟨destroyed, constructed⟩ := ok
        rw [destroyed, constructed]
        split <;> omega
    | finished =>
        rw [phase] at ok
        omega
  · obtain ⟨notAwaited, ok⟩ := inv.each t
    cases phase : (s.promise t).phase with
    | created =>
        rw [phase] at ok
        omega
    | bound =>
        rw [phase] at ok
        obtain ⟨destroyed, constructed⟩ := ok
        have root : (s.promise t).continuation = none :=
          not_not.mp fun some => notAwaited dead ⟨phase, some⟩
        rw [destroyed, constructed, if_pos root]
    | finished =>
        rw [phase] at ok
        omega

theorem Inv.touch (inv : Inv s)
    (same : ∀ t, ∃ stopRequested callbacks, callbacks.Sublist (s.promise t).callbacks ∧
      after.promise t = { s.promise t with stopRequested, callbacks })
    (count : after.count = s.count)
    (running : ∀ t, after.running = some t → (s.promise t).phase = .bound)
    (sources : after.sources = s.sources) : Inv after := by
  have kept (t : Nat) : (after.promise t).alive = (s.promise t).alive ∧
      (after.promise t).phase = (s.promise t).phase ∧
      (after.promise t).owner = (s.promise t).owner ∧
      (after.promise t).continuation = (s.promise t).continuation := by
    obtain ⟨_, _, _, eq⟩ := same t
    rw [eq]
    exact ⟨rfl, rfl, rfl, rfl⟩
  refine ⟨fun t past => ?_, fun t => ?_, fun p c member => ?_, fun p => ?_, fun c p => ?_,
    fun t here => ?_, sources ▸ inv.empty⟩
  · obtain ⟨dead, created, nothing⟩ := inv.unborn t (count ▸ past)
    obtain ⟨_, _, sub, eq⟩ := same t
    rw [eq]
    exact ⟨dead, created, List.sublist_nil.mp (nothing ▸ sub)⟩
  · obtain ⟨_, _, _, eq⟩ := same t
    rw [eq]
    exact inv.each t
  · obtain ⟨_, _, sub, eq⟩ := same p
    rw [eq] at member
    have before := inv.listed p c (sub.subset member)
    obtain ⟨_, _, _, eq⟩ := same c
    rw [eq]
    exact ⟨before.alive, before.bound, before.continuation, before.fwd⟩
  · obtain ⟨_, _, sub, eq⟩ := same p
    rw [eq]
    exact (inv.nodup p).sublist sub
  · rw [(kept c).1, (kept c).2.1, (kept c).2.2.1, (kept c).2.2.2, (kept p).2.1]
    exact inv.awaited c p
  · rw [(kept t).2.1]
    exact running t here

theorem Inv.change (inv : Inv s) {t : Nat} {promise : Promise}
    (promises : after.promise = (s.set t promise).promise) (ok : PromiseOk promise)
    (unlinked : ∀ p, t ∉ (s.promise p).callbacks)
    (own : promise.callbacks = (s.promise t).callbacks)
    (unborn : ∀ u, after.count ≤ u → s.count ≤ u ∧
      (u = t → promise.alive = false ∧ promise.phase = .created))
    (awaited : ∀ p, promise.phase = .bound → promise.continuation = some p →
      promise.owner = some p ∧ p ≠ t ∧ (s.promise p).phase = .bound)
    (inner : (s.promise t).phase = .bound → promise.phase = .bound ∨
      ∀ c, (s.promise c).alive = true → (s.promise c).owner ≠ some t)
    (running : ∀ u, after.running = some u → (after.promise u).phase = .bound)
    (empty : ∀ source ∈ after.sources, source.2 = []) : Inv after := by
  have here : after.promise t = promise := by rw [promises, set_self]
  have there (u : Nat) (apart : u ≠ t) : after.promise u = s.promise u := by
    rw [promises, set_of_ne apart]
  have callbacks (u : Nat) : (after.promise u).callbacks = (s.promise u).callbacks := by
    by_cases same : u = t
    · rw [same, here, own]
    · rw [there u same]
  refine ⟨fun u past => ?_, fun u => ?_, fun p c member => ?_, fun p => ?_, fun c p => ?_,
    running, empty⟩
  · obtain ⟨before, mine⟩ := unborn u past
    obtain ⟨dead, created, nothing⟩ := inv.unborn u before
    rw [callbacks u, nothing]
    by_cases same : u = t
    · rw [same, here]
      exact ⟨(mine same).1, (mine same).2, rfl⟩
    · rw [there u same]
      exact ⟨dead, created, rfl⟩
  · by_cases same : u = t
    · rw [same, here]
      exact ok
    · rw [there u same]
      exact inv.each u
  · rw [callbacks] at member
    have apart : c ≠ t := ne_of_mem_of_not_mem member (unlinked p)
    rw [there c apart]
    exact inv.listed p c member
  · rw [callbacks]
    exact inv.nodup p
  · by_cases same : c = t
    · rw [same, here]
      intro _ phase continuation
      obtain ⟨owner, apart, outer⟩ := awaited p phase continuation
      rw [there p apart]
      exact ⟨owner, outer⟩
    · rw [there c same]
      intro alive phase continuation
      obtain ⟨owner, outer⟩ := inv.awaited c p alive phase continuation
      refine ⟨owner, ?_⟩
      by_cases mine : p = t
      · rw [mine] at owner outer ⊢
        rw [here]
        exact (inner outer).resolve_right fun none => none c alive owner
      · rw [there p mine]
        exact outer

theorem Inv.lt_count (inv : Inv s) {t : Nat} (alive : (s.promise t).alive = true) :
    t < s.count := by
  by_contra past
  cases alive.symm.trans (inv.unborn t (Nat.le_of_not_lt past)).1

/-- A created task is in no callback list. -/
theorem Inv.unlinked_of_created (inv : Inv s) {c : Nat} (created : (s.promise c).phase = .created)
    (p : Nat) : c ∉ (s.promise p).callbacks := by
  intro member
  cases created.symm.trans (inv.listed p c member).bound

/-- `_M_try_push_front_callback` of the source of a coroutine that awaits the task. -/
theorem Inv.push (inv : Inv s) {p c : Nat} (linked : Linked (s.promise c) p)
    (fresh : c ∉ (s.promise p).callbacks) :
    Inv (s.set p { s.promise p with callbacks := c :: (s.promise p).callbacks }) := by
  have outer := (inv.awaited c p linked.alive linked.bound linked.continuation).2
  obtain ⟨after, eq⟩ : ∃ after,
    after = s.set p { s.promise p with callbacks := c :: (s.promise p).callbacks } := ⟨_, rfl⟩
  rw [← eq]
  have kept (t : Nat) : ∃ callbacks, after.promise t = { s.promise t with callbacks } := by
    rw [eq]
    by_cases same : t = p
    · rw [same, set_self]
      exact ⟨_, rfl⟩
    · rw [set_of_ne same]
      exact ⟨_, rfl⟩
  have stays {x q : Nat} (before : Linked (s.promise x) q) : Linked (after.promise x) q := by
    obtain ⟨_, same⟩ := kept x
    rw [same]
    exact ⟨before.alive, before.bound, before.continuation, before.fwd⟩
  have callbacks (t : Nat) : (after.promise t).callbacks =
      if t = p then c :: (s.promise p).callbacks else (s.promise t).callbacks := by
    rw [eq]
    split
    next same => rw [same, set_self]
    next apart => rw [set_of_ne apart]
  refine ⟨fun t past => ?_, fun t => ?_, fun q x member => ?_, fun q => ?_, fun x q => ?_,
    fun t here => ?_, ?_⟩
  · rw [eq] at past
    have before := inv.unborn t past
    have apart : t ≠ p := by
      rintro rfl
      cases outer.symm.trans before.2.1
    rw [eq, set_of_ne apart]
    exact before
  · obtain ⟨_, same⟩ := kept t
    rw [same]
    exact inv.each t
  · rw [callbacks] at member
    split at member
    next same =>
      rcases List.mem_cons.mp member with rfl | before
      · exact stays (same ▸ linked)
      · exact stays (inv.listed q x (same ▸ before))
    next => exact stays (inv.listed q x member)
  · rw [callbacks]
    split
    · exact List.nodup_cons.mpr ⟨fresh, inv.nodup p⟩
    · exact inv.nodup q
  · obtain ⟨_, mine⟩ := kept x
    obtain ⟨_, other⟩ := kept q
    rw [mine, other]
    exact inv.awaited x q
  · obtain ⟨_, same⟩ := kept t
    rw [same]
    rw [eq] at here
    exact inv.running t here
  · rw [eq]
    exact inv.empty

theorem Inv.onAwaitSuspend (inv : Inv s) {c p : Nat} (running : s.running = some p)
    (alive : (s.promise c).alive = true) (created : (s.promise c).phase = .created) :
    Inv { s.onAwaitSuspend c p with running := some c } := by
  have outer := inv.running p running
  have apart : p ≠ c := by
    rintro rfl
    cases outer.symm.trans created
  have ok := (inv.each c).2
  rw [created] at ok
  obtain ⟨constructed, destroyed, root⟩ := ok
  -- the task before its callback is in any list
  have child (stopRequested : Bool) (fwd : Option Nat) :
      Inv { s.set c { s.promise c with
        phase := .bound
        owner := some p
        continuation := some p
        constructed := (s.promise c).constructed + 1
        stopRequested
        fwd } with running := some c } := by
    refine inv.change rfl ⟨fun dead => ?_, destroyed, ?_⟩ (inv.unlinked_of_created created) rfl
      (fun u past => ⟨past, ?_⟩) ?_ (fun _ => .inl rfl) ?_ inv.empty
    · cases alive.symm.trans dead
    · rw [constructed]
      rfl
    · rintro rfl
      exact absurd past (Nat.not_le_of_lt (inv.lt_count alive))
    · intro q _ here
      cases here
      exact ⟨rfl, apart, outer⟩
    · intro u here
      cases here
      exact congrArg Promise.phase (set_self c _)
  unfold State.onAwaitSuspend
  split
  · exact child true none
  · let linked : Promise := { s.promise c with
      phase := .bound
      owner := some p
      continuation := some p
      constructed := (s.promise c).constructed + 1
      fwd := some p }
    let bound : State := { s.set c linked with running := some c }
    have mine : bound.promise c = linked := set_self c linked
    have other : bound.promise p = s.promise p := set_of_ne apart linked
    have pushed : Inv (bound.set p { bound.promise p with
        callbacks := c :: (bound.promise p).callbacks }) := by
      refine (child (s.promise c).stopRequested (some p)).push ?_ ?_
      · change Linked (bound.promise c) p
        rw [mine]
        exact ⟨alive, rfl, rfl, rfl⟩
      · change c ∉ (bound.promise p).callbacks
        rw [other]
        exact inv.unlinked_of_created created p
    rw [other] at pushed
    have swapped := Function.update_comm apart
      { s.promise p with callbacks := c :: (s.promise p).callbacks } linked s.promise
    have whole := congrArg (fun promise => ({ s with promise, running := some c } : State)) swapped
    exact whole ▸ pushed

/-- The destructor of `__fwd_` leaves the task in no callback list. -/
theorem Inv.unlink (inv : Inv s) (c : Nat) : ∃ removed : State, Inv removed ∧
    s.destroyFwd c = removed.set c { removed.promise c with
      phase := .finished
      fwd := none
      destroyed := (removed.promise c).destroyed + 1 } ∧
    (∀ p, c ∉ (removed.promise p).callbacks) ∧
    (∀ t, ∃ callbacks, removed.promise t = { s.promise t with callbacks }) ∧
    removed.count = s.count ∧ removed.sources = s.sources := by
  cases fwd : (s.promise c).fwd with
  | none =>
      refine ⟨s, inv, by rw [State.destroyFwd, fwd], fun p member => ?_, fun _ => ⟨_, rfl⟩,
        rfl, rfl⟩
      cases fwd.symm.trans (inv.listed p c member).fwd
  | some q =>
      refine ⟨s.set q { s.promise q with callbacks := (s.promise q).callbacks.erase c },
        inv.touch (fun t => ?_) rfl inv.running rfl, by rw [State.destroyFwd, fwd],
        fun p member => ?_, fun t => ?_, rfl, rfl⟩
      · by_cases same : t = q
        · rw [same, set_self]
          exact ⟨_, _, List.erase_sublist, rfl⟩
        · rw [set_of_ne same]
          exact ⟨_, _, .refl _, rfl⟩
      · by_cases same : p = q
        · rw [same, set_self] at member
          exact (inv.nodup q).not_mem_erase member
        · rw [set_of_ne same] at member
          exact same (Option.some.inj ((inv.listed p c member).fwd.symm.trans fwd))
      · by_cases same : t = q
        · rw [same, set_self]
          exact ⟨_, rfl⟩
        · rw [set_of_ne same]
          exact ⟨_, rfl⟩

theorem Inv.destroyFwd (inv : Inv s) {c : Nat} {unwinding : List Nat} (running : s.running = some c)
    (left : ∀ k, (s.promise k).alive = true → (s.promise k).owner ≠ some c)
    (awaited : (s.promise c).continuation ≠ none) :
    Inv { s.destroyFwd c with running := (s.promise c).continuation, unwinding } := by
  have bound := inv.running c running
  have alive : (s.promise c).alive = true :=
    Bool.of_not_eq_false fun dead => (inv.each c).1 dead ⟨bound, awaited⟩
  have ok := (inv.each c).2
  rw [bound] at ok
  obtain ⟨destroyed, constructed⟩ := ok
  rw [if_neg awaited] at constructed
  obtain ⟨removed, kept, eq, unlinked, same, count, sources⟩ := inv.unlink c
  obtain ⟨_, mine⟩ := same c
  rw [eq]
  refine kept.change rfl ⟨fun dead => ?_, ?_, ?_⟩ unlinked rfl (fun u past => ⟨past, ?_⟩) nofun
    (fun _ => .inr fun k => ?_) (fun u here => ?_) kept.empty
  · rw [mine] at dead
    cases alive.symm.trans dead
  · rw [mine]
    exact constructed
  · rw [mine]
    exact congrArg (· + 1) destroyed
  · rintro rfl
    exact absurd (count ▸ past) (Nat.not_le_of_lt (inv.lt_count alive))
  · obtain ⟨_, other⟩ := same k
    rw [other]
    exact left k
  · obtain ⟨owner, outer⟩ := inv.awaited c u alive bound here
    have apart : u ≠ c := by
      rintro rfl
      exact left u alive owner
    obtain ⟨_, other⟩ := same u
    refine (congrArg Promise.phase (set_of_ne apart _)).trans ?_
    rw [other]
    exact outer

theorem Inv.create (inv : Inv s) : Inv { s.set s.count { alive := true, owner := s.running } with
    count := s.count + 1 } := by
  obtain ⟨dead, created, nothing⟩ := inv.unborn s.count (Nat.le_refl _)
  refine inv.change rfl ⟨nofun, rfl, rfl, rfl⟩ (inv.unlinked_of_created created) nothing.symm
    (fun u past => ⟨Nat.le_of_succ_le past, ?_⟩) nofun ?_ (fun u here => ?_) inv.empty
  · rintro rfl
    exact absurd past (Nat.not_succ_le_self _)
  · rw [created]
    nofun
  · have bound := inv.running u here
    have apart : u ≠ s.count := by
      rintro rfl
      cases bound.symm.trans created
    exact (congrArg Promise.phase (set_of_ne apart _)).trans bound

theorem Inv.spawn (inv : Inv s) {c : Nat} (alive : (s.promise c).alive = true)
    (created : (s.promise c).phase = .created) :
    Inv (s.set c { s.promise c with phase := .bound, owner := none }) := by
  have ok := (inv.each c).2
  rw [created] at ok
  obtain ⟨constructed, destroyed, root⟩ := ok
  refine inv.change rfl ⟨fun _ awaited => awaited.2 root, destroyed, ?_⟩
    (inv.unlinked_of_created created) rfl (fun u past => ⟨past, ?_⟩) ?_ (fun _ => .inl rfl)
    (fun u here => ?_) inv.empty
  · rw [constructed, if_pos root]
  · rintro rfl
    exact absurd past (Nat.not_le_of_lt (inv.lt_count alive))
  · intro p _ some
    cases root.symm.trans some
  · by_cases same : u = c
    · rw [same, set_self]
    · rw [set_of_ne same]
      exact inv.running u here

/-- The destruction of a promise that has not been awaited, or has finished. -/
theorem Inv.perish (inv : Inv s) {t : Nat} {rest : List Nat} (settled : ¬(s.promise t).Awaited)
    (empty : ∀ c, (s.promise c).alive = true → (s.promise c).owner ≠ some t) :
    Inv { s.set t { s.promise t with alive := false } with
      unwinding := rest
      sources := s.sources ++ [(t, (s.promise t).callbacks)] } := by
  refine inv.change rfl ⟨fun _ => settled, (inv.each t).2⟩ (fun p member => ?_) rfl
    (fun u past => ⟨past, ?_⟩) (fun p bound some => ?_) .inl (fun u here => ?_) ?_
  · have linked := inv.listed p t member
    refine settled ⟨linked.bound, ?_⟩
    rw [linked.continuation]
    nofun
  · rintro rfl
    exact ⟨rfl, (inv.unborn u past).2.1⟩
  · refine absurd ⟨bound, ?_⟩ settled
    rw [show (s.promise t).continuation = _ from some]
    nofun
  · have bound := inv.running u here
    by_cases same : u = t
    · rw [same] at bound ⊢
      exact (congrArg Promise.phase (set_self t _)).trans bound
    · exact (congrArg Promise.phase (set_of_ne same _)).trans bound
  · have nothing : (s.promise t).callbacks = [] := by
      refine List.eq_nil_iff_forall_not_mem.mpr fun c member => ?_
      have linked := inv.listed t c member
      exact empty c linked.alive (inv.awaited c t linked.alive linked.bound linked.continuation).1
    intro source member
    rcases List.mem_append.mp member with before | last
    · exact inv.empty source before
    · rw [List.mem_singleton.mp last]
      exact nothing

theorem Step.inv (inv : Inv s) {event : Event} (proper : Proper s event)
    (step : Step s event after) : Inv after := by
  have same (t : Nat) : ∃ stopRequested callbacks, callbacks.Sublist (s.promise t).callbacks ∧
      s.promise t = { s.promise t with stopRequested, callbacks } := ⟨_, _, .refl _, rfl⟩
  cases step with
  | create => exact inv.create
  | spawn whole alive created => exact inv.spawn alive created
  | await whole running alive created => exact inv.onAwaitSuspend running alive created
  | resume whole stopped alive bound leaf =>
      refine inv.touch same rfl (fun u here => ?_) rfl
      cases here
      exact bound
  | suspend => exact inv.touch same rfl nofun rfl
  | finish whole running left =>
      exact inv.destroyFwd running left (proper.1 rfl _ running)
  | @requestStop t alive =>
      refine inv.touch (fun u => ?_) rfl inv.running rfl
      by_cases mine : u = t
      · rw [mine, set_self]
        exact ⟨true, _, .refl _, rfl⟩
      · rw [set_of_ne mine]
        exact same u
  | @forward p c requested listed =>
      refine inv.touch (fun u => ?_) rfl inv.running rfl
      by_cases mine : u = c
      · rw [mine, set_self]
        exact ⟨true, _, .refl _, rfl⟩
      · rw [set_of_ne mine]
        by_cases outer : u = p
        · rw [outer, set_self]
          exact ⟨_, _, List.erase_sublist, rfl⟩
        · rw [set_of_ne outer]
          exact same u
  | destroy | descend => exact inv.touch same rfl inv.running rfl
  | perish unwinding empty => exact inv.perish (proper.2 rfl _ _ unwinding) empty

theorem inv_of_reachable (reachable : (system.restrict Proper).Reachable s) : Inv s := by
  refine reachable.invariant _ ?_ ?_
  · rintro s rfl
    exact ⟨fun _ _ => ⟨rfl, rfl, rfl⟩, fun _ => ⟨nofun, rfl, rfl, rfl⟩, nofun,
      fun _ => List.nodup_nil, nofun, nofun, nofun⟩
  · rintro s event after _ inv ⟨proper, step⟩
    exact step.inv inv proper

theorem lifecycle_of_proper (reachable : (system.restrict Proper).Reachable s) : Lifecycle s :=
  (inv_of_reachable reachable).lifecycle

end Facts

/-! ### A root and its child -/

theorem reachable_step {s after : State} {event : Event}
    (reachable : (system.restrict Proper).Reachable s) (step : Step s event after)
    (proper : Proper s event) : (system.restrict Proper).Reachable after :=
  reachable.step ⟨proper, step⟩

/-- Task 0 has been made a root. -/
def spawned : State :=
  { (({} : State).set 0 { alive := true }).set 0 { alive := true, phase := .bound } with
    count := 1 }

/-- Task 0 runs and has created task 1. -/
def parent : State :=
  { spawned.set 1 { alive := true, owner := some 0 } with count := 2, running := some 0 }

/-- Task 0 awaits task 1, which runs. -/
def awaiting : State := { parent.onAwaitSuspend 1 0 with running := some 1 }

theorem reachable_awaiting : (system.restrict Proper).Reachable awaiting := by
  have start : (system.restrict Proper).Reachable {} := .init rfl
  have created := reachable_step start (.create rfl) ⟨nofun, nofun⟩
  have bound : (system.restrict Proper).Reachable spawned :=
    reachable_step created (.spawn (c := 0) rfl rfl rfl) ⟨nofun, nofun⟩
  have leaf (c : Nat) : (spawned.promise c).continuation = none := by
    by_cases first : c = 0
    · rw [first]
      rfl
    · simp [spawned, State.set, first]
  have running := reachable_step bound
    (.resume (t := 0) rfl rfl rfl rfl fun c _ _ here => by cases (leaf c).symm.trans here)
    ⟨nofun, nofun⟩
  have child : (system.restrict Proper).Reachable parent :=
    reachable_step running (.create rfl) ⟨nofun, nofun⟩
  exact reachable_step child (.await (c := 1) rfl rfl rfl rfl) ⟨nofun, nofun⟩

theorem awaiting_promise (c : Nat) (other : c ≠ 0) (another : c ≠ 1) :
    awaiting.promise c = {} := by
  simp [awaiting, parent, spawned, State.onAwaitSuspend, State.set, other, another]

/-- No frame lies in the frame of task 1. -/
theorem awaiting_owner (c : Nat) : (awaiting.promise c).owner ≠ some 1 := by
  by_cases first : c = 0
  · rw [first]
    nofun
  · by_cases second : c = 1
    · rw [second]
      nofun
    · rw [awaiting_promise c first second]
      nofun

/-- Task 1 finishes and is destroyed by task 0. -/
theorem lifecycle_finished : ∃ s : State, (system.restrict Proper).Reachable s ∧
    s.sources = [(1, [])] ∧ (s.promise 1).destroyed = 1 ∧ Lifecycle s := by
  have finished := reachable_step reachable_awaiting (.finish rfl rfl fun k _ => awaiting_owner k)
    ⟨fun _ c here => by cases here; nofun, nofun⟩
  have destroyed := reachable_step finished (.destroy (c := 1) rfl rfl fun t here inside => by
    cases here
    rcases inside.cases_head with same | ⟨c, owner, _⟩
    · cases same
    · cases owner) ⟨nofun, nofun⟩
  have perished := reachable_step destroyed (.perish (t := 1) rfl fun c _ here => by
    by_cases first : c = 0
    · rw [first] at here
      cases here
    · by_cases second : c = 1
      · rw [second] at here
        cases here
      · have fwd : (awaiting.promise 1).fwd = some 0 := rfl
        have kept := awaiting_promise c first second
        simp [State.destroyFwd, State.set, fwd, first, second, kept] at here)
    ⟨nofun, fun _ t rest here => by cases here; nofun⟩
  exact ⟨_, perished, rfl, rfl, lifecycle_of_proper perished⟩

/-- The root is destroyed while task 1 is suspended: the source of the root still links the
callback in the frame of task 1, which is gone. -/
theorem destroyed_while_awaiting : ¬ ∀ s, system.Reachable s → Lifecycle s := by
  intro every
  have suspended := reachable_awaiting.of_restrict.step (.suspend rfl)
  have destroyed := suspended.step (.destroy (c := 0) rfl rfl nofun)
  have child := destroyed.step (.descend (c := 1) rfl rfl rfl)
  have perished := child.step (.perish rfl fun c _ => awaiting_owner c)
  have whole := perished.step (.perish (t := 0) rfl fun c alive here => by
    by_cases first : c = 0
    · rw [first] at here
      cases here
    · by_cases second : c = 1
      · rw [second] at alive
        cases alive
      · simp [State.set, second, awaiting_promise c first second] at here)
  exact absurd ((every _ whole).empty (0, [1]) (by decide)) (by decide)

end NgrCore.TaskPromise
