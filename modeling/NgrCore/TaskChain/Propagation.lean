import NgrCore.Library.Neighbours
import NgrCore.TaskChain

/-!
Owns the propagation of stop requests: between a task whose source has the flag and the task
it awaits, the flag is set too, the callback is still in the list that some call works
off, or some call is about to request stop.
-/

namespace NgrCore.TaskChain

open NgrCore.Library

section Definitions

variable {Id : Type}

/-- A call that is, or has been, made by some thread or by the callback of a task that is
awaited. -/
def State.Has (s : State Id) (request : Request) : Prop :=
  (∃ k, s.calls k = some request) ∨ ∃ c, s.coroutine = .executing c request

/-- The request has called `_M_request_stop` on the source, and that call has not returned. -/
def Request.Active (request : Request) (t : Nat) : Prop :=
  t ∈ request.stack ∨ request.pc = .enter t

/-- A call on the source of the task is in progress. -/
def State.Busy (s : State Id) (t : Nat) : Prop := ∃ request, s.Has request ∧ request.Active t

/-- What holds of a request. Tasks further in have greater numbers. -/
structure RequestOk (s : State Id) (request : Request) : Prop where
  started : (request.stack = [] ∧ request.pc = .enter request.target) ∨
    (s.source request.target).stopRequested = true
  inside : ∀ t, request.Active t → request.target ≤ t
  ended : ∀ result, request.pc = .done result → request.stack = []

structure Inv (s : State Id) : Prop where
  sorted : s.chain.Pairwise (· > ·)
  known : ∀ t ∈ s.chain, t < s.count
  listed : ∀ p, ∀ c ∈ (s.source p).callbacks, p < c
  linked : ∀ c p, Follows s.chain c p → c ∈ (s.source p).callbacks ∨
    (s.source c).stopRequested = true ∨ ∃ request, s.Has request ∧ request.pc = .enter c
  looping : ∀ p, (s.source p).stopRequested = true → (s.source p).callbacks ≠ [] →
    ∃ request, s.Has request ∧ p ∈ request.stack
  requests : ∀ request, s.Has request → RequestOk s request
  executing : ∀ c request, s.coroutine = .executing c request →
    request.target = c ∧ c < s.count ∧ ∀ t ∈ s.chain, t < c

end Definitions

section Facts

variable {Id : Type} {s after mid : State Id} {request next : Request}

theorem setSource_self (t : Nat) (source : Source) : (s.setSource t source).source t = source :=
  Function.update_self _ _ _

theorem setSource_of_ne {t u : Nat} (apart : u ≠ t) (source : Source) :
    (s.setSource t source).source u = s.source u :=
  Function.update_of_ne apart _ _

theorem RequestOk.stopped (ok : RequestOk s request) {result : Bool}
    (done : request.pc = .done result) : (s.source request.target).stopRequested = true := by
  refine ok.started.resolve_left fun start => ?_
  cases done.symm.trans start.2

/-- A request that does not move sees no flag being cleared. -/
theorem RequestOk.mono (ok : RequestOk s request)
    (flags : ∀ t, (s.source t).stopRequested = true → (after.source t).stopRequested = true) :
    RequestOk after request :=
  ⟨ok.started.imp_right (flags _), ok.inside, ok.ended⟩

theorem RequestOk.return (ok : RequestOk s request) {t : Nat} {result : Bool} {stack : List Nat}
    (sub : ∀ u ∈ stack, u ∈ request.stack)
    (stopped : (s.source request.target).stopRequested = true) :
    RequestOk s (request.return t result stack) := by
  refine ⟨.inr stopped, ?_, ?_⟩
  · rintro u (member | pc)
    · exact ok.inside u (.inl (sub u member))
    · unfold Request.return at pc
      split at pc <;> cases pc
  · intro result pc
    unfold Request.return at pc
    split at pc
    next empty => exact empty
    next => cases pc

/-- What a step of a call leaves of the sources. -/
structure Progress (s after : State Id) (request next : Request) : Prop where
  flags : ∀ t, (s.source t).stopRequested = true → (after.source t).stopRequested = true
  callbacks : ∀ p, ((after.source p).callbacks).Sublist (s.source p).callbacks
  kept : ∀ p, ∀ c ∈ (s.source p).callbacks, c ∈ (after.source p).callbacks ∨ next.pc = .enter c
  entered : ∀ c, request.pc = .enter c → (after.source c).stopRequested = true
  loop : ∀ p, (after.source p).stopRequested = true → (after.source p).callbacks ≠ [] →
    (s.source p).stopRequested = false ∨ p ∈ request.stack → p ∈ next.stack
  ok : RequestOk after next
  target : next.target = request.target
  above : ∀ t, t < request.target → after.source t = s.source t

/-- A call that has entered its first source has found the flag, or set it. -/
theorem RequestOk.entered (ok : RequestOk s request) {pc : Pc} (here : request.pc = pc)
    (elsewhere : pc ≠ .enter request.target) : (s.source request.target).stopRequested = true :=
  ok.started.resolve_left fun start => elsewhere (here.symm.trans start.2)

/-- A source keeps its flag when its callbacks change, and the other way round. -/
theorem flags_setSource (t : Nat) (source : Source)
    (same : (s.source t).stopRequested = true → source.stopRequested = true) (u : Nat)
    (before : (s.source u).stopRequested = true) :
    ((s.setSource t source).source u).stopRequested = true := by
  by_cases mine : u = t
  · rw [mine] at before ⊢
    rw [setSource_self]
    exact same before
  · rw [setSource_of_ne mine]
    exact before

theorem Progress.of_refuse (ok : RequestOk s request) {t : Nat} (pc : request.pc = .enter t)
    (requested : (s.source t).stopRequested = true) :
    Progress s s request (request.return t true request.stack) := by
  refine ⟨fun _ => id, fun _ => .refl _, fun _ _ => .inl, fun c here => ?_,
    fun p stopped _ before => ?_, ok.return (fun _ => id) ?_, rfl, fun _ _ => rfl⟩
  · cases pc.symm.trans here
    exact requested
  · rcases before with not | inside
    · cases stopped.symm.trans not
    · exact inside
  · rcases ok.started with ⟨_, start⟩ | stopped
    · cases pc.symm.trans start
      exact requested
    · exact stopped

theorem Progress.of_win (ok : RequestOk s request) {t : Nat} (pc : request.pc = .enter t) :
    Progress s (s.setSource t { s.source t with stopRequested := true }) request
      { request with stack := t :: request.stack, pc := .test } := by
  have flags := flags_setSource (s := s) t { s.source t with stopRequested := true } fun _ => rfl
  have callbacks (p : Nat) : ((s.setSource t { s.source t with stopRequested := true }).source
      p).callbacks = (s.source p).callbacks := by
    by_cases mine : p = t
    · rw [mine, setSource_self]
    · rw [setSource_of_ne mine]
  refine ⟨flags, fun p => (callbacks p).symm ▸ .refl _,
    fun p c member => .inl (callbacks p ▸ member), fun c here => ?_,
    fun p stopped _ before => ?_, ⟨.inr ?_, ?_, nofun⟩, rfl, fun u below => ?_⟩
  · cases pc.symm.trans here
    rw [setSource_self]
  · by_cases mine : p = t
    · exact mine ▸ List.mem_cons_self
    · rw [setSource_of_ne mine] at stopped
      rcases before with not | inside
      · cases stopped.symm.trans not
      · exact List.mem_cons_of_mem _ inside
  · rcases ok.started with ⟨_, start⟩ | stopped
    · cases pc.symm.trans start
      rw [setSource_self]
    · exact flags _ stopped
  · rintro u (member | here)
    · rcases List.mem_cons.mp member with rfl | inside
      · exact ok.inside u (.inr pc)
      · exact ok.inside u (.inl inside)
    · cases here
  · have above := ok.inside t (.inr pc)
    exact setSource_of_ne (by omega) _

theorem Progress.of_take (inv : Inv s) (ok : RequestOk s request) {t c : Nat}
    {outer callbacks : List Nat} (pc : request.pc = .test) (stack : request.stack = t :: outer)
    (front : (s.source t).callbacks = c :: callbacks) :
    Progress s (s.setSource t { s.source t with callbacks }) request
      { request with pc := .enter c } := by
  have inside : request.target ≤ t := ok.inside t (.inl (stack ▸ List.mem_cons_self))
  have deeper : t < c := inv.listed t c (front ▸ List.mem_cons_self)
  have flags := flags_setSource (s := s) t { s.source t with callbacks } id
  refine ⟨flags, fun p => ?_, fun p x member => ?_, fun x here => ?_, fun p stopped _ before => ?_,
    ⟨.inr (flags _ (ok.entered pc nofun)), ?_, nofun⟩, rfl, fun u below => ?_⟩
  · by_cases mine : p = t
    · rw [mine, setSource_self, front]
      exact List.sublist_cons_self c callbacks
    · rw [setSource_of_ne mine]
  · by_cases mine : p = t
    · rw [mine, front] at member
      rw [mine, setSource_self]
      rcases List.mem_cons.mp member with rfl | later
      · exact .inr rfl
      · exact .inl later
    · rw [setSource_of_ne mine]
      exact .inl member
  · cases pc.symm.trans here
  · rcases before with not | member
    · by_cases mine : p = t
      · rw [mine, setSource_self] at stopped
        cases stopped.symm.trans (mine ▸ not)
      · rw [setSource_of_ne mine] at stopped
        cases stopped.symm.trans not
    · exact member
  · rintro u (member | here)
    · exact ok.inside u (.inl member)
    · cases here
      exact Nat.le_trans inside (Nat.le_of_lt deeper)
  · exact setSource_of_ne (by omega) _

theorem Progress.of_last (ok : RequestOk s request) {t : Nat} {outer : List Nat}
    (pc : request.pc = .test) (stack : request.stack = t :: outer)
    (empty : (s.source t).callbacks = []) :
    Progress s s request (request.return t false outer) := by
  refine ⟨fun _ => id, fun _ => .refl _, fun _ _ => .inl, fun c here => ?_,
    fun p stopped some before => ?_, ok.return (fun u member => ?_) (ok.entered pc nofun), rfl,
    fun _ _ => rfl⟩
  · cases pc.symm.trans here
  · rcases before with not | inside
    · cases stopped.symm.trans not
    · rw [stack] at inside
      rcases List.mem_cons.mp inside with rfl | further
      · exact absurd empty some
      · exact further
  · rw [stack]
    exact List.mem_cons_of_mem _ member

theorem RequestStep.progress (inv : Inv s) (ok : RequestOk s request)
    (step : RequestStep s request mid next) : Progress s mid request next := by
  cases step with
  | refuse pc requested => exact .of_refuse ok pc requested
  | win pc first => exact .of_win ok pc
  | take pc stack front => exact .of_take inv ok pc stack front
  | last pc stack empty => exact .of_last ok pc stack empty
  | complete pc =>
      refine ⟨fun _ => id, fun _ => .refl _, fun _ _ => .inl, fun c here => ?_,
        fun p stopped _ before => ?_, ⟨.inr (ok.entered pc nofun), ?_, nofun⟩, rfl, fun _ _ => rfl⟩
      · cases pc.symm.trans here
      · rcases before with not | inside
        · cases stopped.symm.trans not
        · exact inside
      · rintro u (member | here)
        · exact ok.inside u (.inl member)
        · cases here

end Facts

section Steps

variable {Id : Type} {s after mid : State Id} {request next : Request}

/-- A step of a call changes the sources and their callbacks only. -/
theorem RequestStep.frame (step : RequestStep s request mid next) :
    mid.chain = s.chain ∧ mid.count = s.count ∧ mid.calls = s.calls ∧
      mid.coroutine = s.coroutine := by
  cases step <;> exact ⟨rfl, rfl, rfl, rfl⟩

theorem Progress.congr (progress : Progress s mid request next)
    (same : after.source = mid.source) : Progress s after request next := by
  obtain ⟨flags, callbacks, kept, entered, loop, ok, target, above⟩ := progress
  rw [← same] at flags callbacks kept entered loop above
  exact ⟨flags, callbacks, kept, entered, loop, ok.mono fun t flag => same ▸ flag, target, above⟩

theorem Inv.progress (inv : Inv s) (has : s.Has request) (progress : Progress s after request next)
    (chain : after.chain = s.chain) (count : after.count = s.count) (now : after.Has next)
    (others : ∀ other, after.Has other → other = next ∨ s.Has other)
    (kept : ∀ other, s.Has other → other = request ∨ after.Has other)
    (executing : ∀ c other, after.coroutine = .executing c other →
      ∃ before, s.coroutine = .executing c before ∧ other.target = before.target) :
    Inv after := by
  refine ⟨chain ▸ inv.sorted, fun t member => ?_, fun p c member => ?_, fun c p follows => ?_,
    fun p stopped some => ?_, fun other here => ?_, fun c other here => ?_⟩
  · rw [count]
    exact inv.known t (chain ▸ member)
  · exact inv.listed p c ((progress.callbacks p).subset member)
  · rcases inv.linked c p (chain ▸ follows) with listed | stopped | ⟨other, here, pc⟩
    · rcases progress.kept p c listed with still | entering
      · exact .inl still
      · exact .inr (.inr ⟨next, now, entering⟩)
    · exact .inr (.inl (progress.flags c stopped))
    · rcases kept other here with rfl | there
      · exact .inr (.inl (progress.entered c pc))
      · exact .inr (.inr ⟨other, there, pc⟩)
  · cases before : (s.source p).stopRequested with
    | false => exact ⟨next, now, progress.loop p stopped some (.inl before)⟩
    | true =>
        have nonempty : (s.source p).callbacks ≠ [] := by
          intro empty
          exact some (List.sublist_nil.mp (empty ▸ progress.callbacks p))
        obtain ⟨other, here, inside⟩ := inv.looping p before nonempty
        rcases kept other here with rfl | there
        · exact ⟨next, now, progress.loop p stopped some (.inr inside)⟩
        · exact ⟨other, there, inside⟩
  · rcases others other here with rfl | before
    · exact progress.ok
    · exact (inv.requests other before).mono progress.flags
  · obtain ⟨before, same, target⟩ := executing c other here
    rw [target, chain, count]
    exact inv.executing c before same

theorem has_iff (s after : State Id) (calls : after.calls = s.calls)
    (here : ∀ c request, s.coroutine ≠ .executing c request)
    (there : ∀ c request, after.coroutine ≠ .executing c request) (request : Request) :
    after.Has request ↔ s.Has request := by
  unfold State.Has
  rw [calls]
  exact or_congr_right ⟨fun ⟨c, own⟩ => absurd own (there c request), fun ⟨c, own⟩ =>
    absurd own (here c request)⟩

/-- The chain loses its innermost task, whose callback has been removed or has run. -/
theorem Inv.shorten (inv : Inv s) {c : Nat} {chain : List Nat} (front : s.chain = c :: chain)
    (after : State Id) (chainEq : after.chain = chain) (count : after.count = s.count)
    (source : ∀ p, (after.source p).stopRequested = (s.source p).stopRequested ∧
      (after.source p).callbacks.Sublist (s.source p).callbacks)
    (kept : ∀ x ∈ chain, ∀ p, x ∈ (s.source p).callbacks → x ∈ (after.source p).callbacks)
    (has : ∀ request, after.Has request ↔ s.Has request)
    (running : ∀ c request, after.coroutine ≠ .executing c request) : Inv after := by
  have inner : ∀ x p, Follows chain x p → Follows s.chain x p := by
    intro x p follows
    rw [front]
    exact follows_cons.mpr (.inr follows)
  have sorted := inv.sorted
  rw [front] at sorted
  refine ⟨chainEq ▸ (List.pairwise_cons.mp sorted).2, fun t member => ?_, fun p x member => ?_,
    fun x p follows => ?_, fun p stopped some => ?_, fun request here => ?_,
    fun x request here => absurd here (running x request)⟩
  · rw [count]
    refine inv.known t ?_
    rw [front]
    exact List.mem_cons_of_mem _ (chainEq ▸ member)
  · exact inv.listed p x ((source p).2.subset member)
  · rw [chainEq] at follows
    simp only [(source x).1, has]
    exact (inv.linked x p (inner x p follows)).imp_left (kept x follows.mem_first p)
  · simp only [has]
    refine inv.looping p ((source p).1 ▸ stopped) fun empty => some ?_
    exact List.sublist_nil.mp (empty ▸ (source p).2)
  · exact (inv.requests request ((has request).mp here)).mono fun t flag => by
      rw [(source t).1]
      exact flag

theorem Inv.push (inv : Inv s) {p : Nat} {outer : List Nat} (running : s.coroutine = .running)
    (chain : s.chain = p :: outer) (notYet : (s.source p).stopRequested = false) :
    Inv { s.setSource p { s.source p with callbacks := s.count :: (s.source p).callbacks } with
      count := s.count + 1
      chain := s.count :: s.chain
      registered := Function.update s.registered s.count true } := by
  have callbacks (q : Nat) (x : Nat) : x ∈ ((s.setSource p { s.source p with
      callbacks := s.count :: (s.source p).callbacks }).source q).callbacks ↔
      (q = p ∧ x = s.count) ∨ x ∈ (s.source q).callbacks := by
    by_cases mine : q = p
    · rw [mine, setSource_self, List.mem_cons]
      simp
    · rw [setSource_of_ne mine]
      simp [mine]
  have flags (q : Nat) : ((s.setSource p { s.source p with
      callbacks := s.count :: (s.source p).callbacks }).source q).stopRequested =
      (s.source q).stopRequested := by
    by_cases mine : q = p
    · rw [mine, setSource_self]
    · rw [setSource_of_ne mine]
  have head : p < s.count := inv.known p (chain ▸ List.mem_cons_self)
  refine ⟨List.pairwise_cons.mpr ⟨fun t => inv.known t, inv.sorted⟩, fun t member => ?_,
    fun q x member => ?_, fun x q follows => ?_, fun q stopped some => ?_, fun request here => ?_,
    fun x request here => ?_⟩
  · rcases List.mem_cons.mp member with rfl | before
    · exact Nat.lt_succ_self _
    · exact Nat.lt_succ_of_lt (inv.known t before)
  · rcases (callbacks q x).mp member with ⟨rfl, rfl⟩ | before
    · exact head
    · exact inv.listed q x before
  · rcases follows_cons.mp follows with ⟨rfl, first⟩ | before
    · rw [chain] at first
      cases first
      exact .inl ((callbacks p _).mpr (.inl ⟨rfl, rfl⟩))
    · exact (inv.linked x q before).imp (fun listed => (callbacks q x).mpr (.inr listed))
        (Or.imp_left fun stopped => (flags x).trans stopped)
  · have apart : q ≠ p := by
      rintro rfl
      cases notYet.symm.trans ((flags q).symm.trans stopped)
    refine inv.looping q ((flags q).symm.trans stopped) fun empty => some ?_
    exact (congrArg Source.callbacks (setSource_of_ne apart _)).trans empty
  · exact (inv.requests request here).mono fun t flag => (flags t).trans flag
  · cases running.symm.trans here

/-- A fresh task is awaited while stop is requested, and its callback is executed. -/
theorem Inv.execute (inv : Inv s) (running : s.coroutine = .running) :
    Inv { s with count := s.count + 1, coroutine := .executing s.count (.begin s.count) } := by
  have kept (request : Request) (here : s.Has request) : State.Has { s with
      count := s.count + 1, coroutine := .executing s.count (.begin s.count) } request := by
    rcases here with call | ⟨c, own⟩
    · exact .inl call
    · cases running.symm.trans own
  refine ⟨inv.sorted, fun t member => Nat.lt_succ_of_lt (inv.known t member), inv.listed,
    fun x q follows => ?_, fun q stopped some => ?_, fun request here => ?_,
    fun x request here => ?_⟩
  · refine (inv.linked x q follows).imp_right (Or.imp_right ?_)
    rintro ⟨request, here, pc⟩
    exact ⟨request, kept request here, pc⟩
  · obtain ⟨request, here, inside⟩ := inv.looping q stopped some
    exact ⟨request, kept request here, inside⟩
  · rcases here with call | ⟨c, own⟩
    · exact (inv.requests request (.inl call)).mono fun _ => id
    · cases own
      refine ⟨.inl ⟨rfl, rfl⟩, ?_, nofun⟩
      rintro t (inside | pc)
      · cases inside
      · cases pc
        exact Nat.le_refl _
  · cases here
    exact ⟨rfl, Nat.lt_succ_self _, fun t member => inv.known t member⟩

/-- The callback of the awaited task has been executed, and the task is resumed. -/
theorem Inv.executed (inv : Inv s) {c : Nat} {result : Bool}
    (executing : s.coroutine = .executing c request) (done : request.pc = .done result) :
    Inv { s with chain := c :: s.chain, coroutine := .running } := by
  obtain ⟨rfl, known, front⟩ := inv.executing c request executing
  have ok := inv.requests request (.inr ⟨_, executing⟩)
  have kept {P : Request → Prop} (other : ¬P request) :
      (∃ r, s.Has r ∧ P r) → ∃ r, State.Has { s with
        chain := request.target :: s.chain, coroutine := .running } r ∧ P r := by
    rintro ⟨r, call | ⟨c, own⟩, holds⟩
    · exact ⟨r, .inl call, holds⟩
    · cases executing.symm.trans own
      exact absurd holds other
  refine ⟨List.pairwise_cons.mpr ⟨front, inv.sorted⟩, fun t member => ?_, inv.listed,
    fun x q follows => ?_, fun q stopped some => ?_, fun r here => ?_, nofun⟩
  · rcases List.mem_cons.mp member with rfl | before
    · exact known
    · exact inv.known t before
  · rcases follows_cons.mp follows with ⟨rfl, _⟩ | before
    · exact .inr (.inl (ok.stopped done))
    · refine (inv.linked x q before).imp_right (Or.imp_right (kept ?_))
      rw [done]
      nofun
  · refine kept ?_ (inv.looping q stopped some)
    rw [ok.ended result done]
    exact List.not_mem_nil
  · rcases here with call | ⟨c, own⟩
    · exact (inv.requests r (.inl call)).mono fun _ => id
    · cases own

/-- The innermost task finishes, and its callback is removed from the list. -/
theorem Inv.remove (inv : Inv s) {c p : Nat} {outer : List Nat} (running : s.coroutine = .running)
    (chain : s.chain = c :: p :: outer) :
    Inv { s.setSource p { s.source p with callbacks := (s.source p).callbacks.erase c } with
      chain := p :: outer } := by
  have sorted := inv.sorted
  rw [chain] at sorted
  refine inv.shorten chain _ rfl rfl (fun q => ?_) (fun x member q here => ?_)
    (fun _ => Iff.rfl) (fun d request own => ?_)
  · by_cases mine : q = p
    · rw [mine]
      change ((s.setSource p _).source p).stopRequested = _ ∧
        ((s.setSource p _).source p).callbacks.Sublist _
      rw [setSource_self]
      exact ⟨rfl, List.erase_sublist⟩
    · change ((s.setSource p _).source q).stopRequested = _ ∧
        ((s.setSource p _).source q).callbacks.Sublist _
      rw [setSource_of_ne mine]
      exact ⟨rfl, .refl _⟩
  · change x ∈ ((s.setSource p _).source q).callbacks
    by_cases mine : q = p
    · rw [mine] at here ⊢
      rw [setSource_self]
      have apart : x ≠ c := Nat.ne_of_lt ((List.pairwise_cons.mp sorted).1 x member)
      exact (List.mem_erase_of_ne apart).mpr here
    · rw [setSource_of_ne mine]
      exact here
  · cases running.symm.trans own

theorem CoroutineStep.inv (inv : Inv s) (step : CoroutineStep s after) : Inv after := by
  cases step with
  | push running chain notYet => exact inv.push running chain notYet
  | execute running chain requested => exact inv.execute running
  | @request c request next mid executing step =>
      obtain ⟨chain, count, calls, _⟩ := step.frame
      have has : s.Has request := .inr ⟨c, executing⟩
      have progress : Progress s { mid with coroutine := .executing c next } request next :=
        (step.progress inv (inv.requests request has)).congr rfl
      refine inv.progress has progress chain count (.inr ⟨c, rfl⟩) ?_ ?_ ?_
      · rintro other (⟨k, call⟩ | ⟨d, own⟩)
        · exact .inr (.inl ⟨k, calls ▸ call⟩)
        · cases own
          exact .inl rfl
      · rintro other (⟨k, call⟩ | ⟨d, own⟩)
        · exact .inr (.inl ⟨k, calls.symm ▸ call⟩)
        · cases executing.symm.trans own
          exact .inl rfl
      · intro d other own
        cases own
        exact ⟨request, executing, progress.target⟩
  | executed executing done => exact inv.executed executing done
  | remove running chain => exact inv.remove running chain
  | wait running =>
      have has := has_iff s { s with coroutine := .waiting } rfl (by rw [running]; nofun) nofun
      refine ⟨inv.sorted, inv.known, inv.listed, fun x q follows => ?_, fun q stopped some => ?_,
        fun request here => ?_, nofun⟩
      · simp only [has]
        exact inv.linked x q follows
      · simp only [has]
        exact inv.looping q stopped some
      · exact (inv.requests request ((has request).mp here)).mono fun _ => id
  | waited waiting chain completed =>
      exact inv.shorten chain _ rfl rfl (fun _ => ⟨rfl, .refl _⟩) (fun _ _ _ => id)
        (has_iff s _ rfl (by rw [waiting]; nofun) nofun) nofun
  | finish running chain executed =>
      refine inv.shorten chain _ rfl rfl (fun _ => ⟨rfl, .refl _⟩) (fun _ _ _ => id)
        (fun _ => Iff.rfl) fun d request own => ?_
      cases running.symm.trans own

end Steps

section Runs

variable {Id : Type} [DecidableEq Id] {s after : State Id} {label : Option Id}

theorem Inv.call (inv : Inv s) {k : Id} {t : Nat}
    (idle : ∀ request, s.calls k = some request → ∃ result, request.pc = .done result) :
    Inv { s with calls := Function.update s.calls k (some (.begin t)) } := by
  have kept {P : Request → Prop} (busy : ∀ r, s.Has r → P r → ∀ result, r.pc ≠ .done result) :
      (∃ r, s.Has r ∧ P r) → ∃ r, State.Has { s with
        calls := Function.update s.calls k (some (.begin t)) } r ∧ P r := by
    rintro ⟨r, ⟨j, call⟩ | own, holds⟩
    · refine ⟨r, .inl ⟨j, (Function.update_of_ne ?_ _ _).trans call⟩, holds⟩
      rintro rfl
      obtain ⟨result, done⟩ := idle r call
      exact busy r (.inl ⟨j, call⟩) holds result done
    · exact ⟨r, .inr own, holds⟩
  refine ⟨inv.sorted, inv.known, inv.listed, fun x q follows => ?_, fun q stopped some => ?_,
    fun request here => ?_, inv.executing⟩
  · refine (inv.linked x q follows).imp_right (Or.imp_right (kept fun r _ enter result done => ?_))
    cases enter.symm.trans done
  · refine kept (fun r has inside result done => ?_) (inv.looping q stopped some)
    rw [(inv.requests r has).ended result done] at inside
    cases inside
  · rcases here with ⟨j, call⟩ | own
    · by_cases mine : j = k
      · rw [mine] at call
        cases (Function.update_self k (some (Request.begin t)) s.calls).symm.trans call
        refine ⟨.inl ⟨rfl, rfl⟩, ?_, nofun⟩
        rintro u (inside | pc)
        · cases inside
        · cases pc
          exact Nat.le_refl _
      · have before := (Function.update_of_ne mine _ s.calls).symm.trans call
        exact (inv.requests request (.inl ⟨j, before⟩)).mono fun _ => id
    · exact (inv.requests request (.inr own)).mono fun _ => id

theorem Step.inv (inv : Inv s) (step : Step s label after) : Inv after := by
  cases step with
  | coroutine step => exact step.inv inv
  | call idle member => exact inv.call idle
  | @request k request next mid call step =>
      obtain ⟨chain, count, calls, coroutine⟩ := step.frame
      have has : s.Has request := .inl ⟨k, call⟩
      have progress : Progress s { mid with calls := Function.update mid.calls k (some next) }
          request next := (step.progress inv (inv.requests request has)).congr rfl
      refine inv.progress has progress chain count (.inl ⟨k, Function.update_self _ _ _⟩) ?_ ?_ ?_
      · rintro other (⟨j, here⟩ | ⟨c, own⟩)
        · by_cases mine : j = k
          · rw [mine] at here
            cases (Function.update_self k (some next) mid.calls).symm.trans here
            exact .inl rfl
          · have before := (Function.update_of_ne mine _ mid.calls).symm.trans here
            exact .inr (.inl ⟨j, calls ▸ before⟩)
        · exact .inr (.inr ⟨c, coroutine ▸ own⟩)
      · rintro other (⟨j, here⟩ | ⟨c, own⟩)
        · by_cases mine : j = k
          · rw [mine] at here
            cases call.symm.trans here
            exact .inl rfl
          · refine .inr (.inl ⟨j, (Function.update_of_ne mine _ _).trans ?_⟩)
            exact calls.symm ▸ here
        · exact .inr (.inr ⟨c, coroutine.symm ▸ own⟩)
      · intro c other own
        exact ⟨other, coroutine ▸ own, rfl⟩

theorem inv_of_reachable (reachable : (system Id).Reachable s) : Inv s := by
  refine reachable.invariant _ ?_ ?_
  · rintro s rfl
    refine ⟨List.pairwise_singleton _ _, fun t member => ?_, nofun, fun x q follows => ?_,
      nofun, ?_, nofun⟩
    · rw [List.mem_singleton.mp member]
      exact Nat.zero_lt_one
    · exact absurd follows follows_singleton
    · rintro request (⟨_, call⟩ | ⟨_, own⟩)
      · cases call
      · cases own
  · intro s label after _ inv step
    exact step.inv inv

end Runs

end NgrCore.TaskChain
