import NgrCore.StopSource.Barrier

/-!
Owns the way of a call to its return: when its next step can be made, and the work that
is left to it, of which every step does some that is no test of a locked word. A removal
waits only for a callback that a request has in hand.
-/

namespace NgrCore.StopSource

section Calls

variable {Id : Type}

def Call.isReturned : Call → Bool
  | .register _ (.returned _) | .remove _ .returned | .requestStop (.returned _) => true
  | _ => false

/-- The positions of `_M_remove_callback` at which it has found its callback taken. -/
def RemovePc.isWaiting : RemovePc → Bool
  | .wait => true
  | .unlock _ waits => waits
  | _ => false

/-- The positions at which a call tests and exchanges `__state_`. -/
def Call.spins : Call → Bool
  | .register _ .load | .register _ .exchange => true
  | .remove _ .load | .remove _ (.exchange _) => true
  | .requestStop .load | .requestStop .exchange => true
  | .requestStop .relock | .requestStop (.relockExchange _) => true
  | _ => false

theorem Call.Executes.not_holds {call : Call} {cb : Callback} (executes : call.Executes cb) :
    call.holds = false := by
  rcases executes with rfl | rfl <;> rfl

theorem Call.inside_of_subject {call : Call} {cb : Callback} (subject : call.subject = some cb) :
    call.isReturned = false := by
  unfold Call.subject at subject
  split at subject <;> first | rfl | exact absurd subject nofun

theorem Call.inside_of_executes {call : Call} {cb : Callback} (executes : call.Executes cb) :
    call.isReturned = false ∧ call.spins = false ∧ ∀ cb, call ≠ .remove cb .wait := by
  rcases executes with rfl | rfl <;> exact ⟨rfl, rfl, fun _ => nofun⟩

/-- A call that holds the lock is past its tests of the word and before its return. -/
theorem Call.inside_of_holds {call : Call} (holds : call.holds = true) :
    call.isReturned = false ∧ call.spins = false ∧ ∀ cb, call ≠ .remove cb .wait := by
  unfold Call.holds at holds
  split at holds <;> first | exact ⟨rfl, rfl, fun _ => nofun⟩ | exact absurd holds nofun

variable {source after : Source Id} {i : Id} {cb : Callback}

/-- Every call moves on, unless it waits for a callback to be completed. -/
theorem exists_move (source : Source Id) (i : Id) {call : Call} [DecidableEq Id]
    (begun : call ≠ .idle) (inside : call.isReturned = false)
    (completed : ∀ cb, call = .remove cb .wait → source.completed cb = true) :
    ∃ after next, Move source i call after next := by
  cases call with
  | idle => exact absurd rfl begun
  | register cb pc =>
      cases pc with
      | load => exact ⟨_, _, .register .load⟩
      | exchange => exact ⟨_, _, .register .lose⟩
      | push => exact ⟨_, _, .register .push⟩
      | unlock => exact ⟨_, _, .register .unlock⟩
      | execute => exact ⟨_, _, .register .execute⟩
      | executing => exact ⟨_, _, .register .finish⟩
      | returned pushed => exact absurd inside nofun
  | remove cb pc =>
      cases pc with
      | load => exact ⟨_, _, .remove .load⟩
      | exchange prev => exact ⟨_, _, .remove .lose⟩
      | unlink prev =>
          cases link : source.list.prev cb with
          | none => exact ⟨_, _, .remove (.taken link)⟩
          | some slot => exact ⟨_, _, .remove (.unlink link)⟩
      | unlock prev waits => exact ⟨_, _, .remove .unlock⟩
      | wait => exact ⟨_, _, .remove (.wait (completed cb rfl))⟩
      | returned => exact absurd inside nofun
  | requestStop pc =>
      cases pc with
      | load => exact ⟨_, _, .requestStop .load⟩
      | exchange => exact ⟨_, _, .requestStop .lose⟩
      | notify => exact ⟨_, _, .requestStop .notify⟩
      | test =>
          cases head : source.list.head with
          | none => exact ⟨_, _, .requestStop (.last head)⟩
          | some tmp => exact ⟨_, _, .requestStop (.take head)⟩
      | release tmp => exact ⟨_, _, .requestStop .release⟩
      | execute tmp => exact ⟨_, _, .requestStop .execute⟩
      | executing tmp => exact ⟨_, _, .requestStop .complete⟩
      | relock => exact ⟨_, _, .requestStop .relock⟩
      | relockExchange prev => exact ⟨_, _, .requestStop .loseRelock⟩
      | finish => exact ⟨_, _, .requestStop .finish⟩
      | returned result => exact absurd inside nofun

end Calls

section Waiting

variable {Id : Type} [DecidableEq Id] {s next : State Id} {i j : Id} {cb : Callback}

theorem step_other (step : Step s i next) (other : j ≠ i) : next.calls j = s.calls j := by
  cases step <;> exact Function.update_of_ne other _ _

/-- What a request has taken stays with it. -/
theorem Inv.taken_stays (inv : Inv s) (step : Step s i next)
    (taken : (s.source.stage cb).Taken) : (next.source.stage cb).Taken := by
  have other {moved : Callback} {stage : Stage Id} (before : ¬(s.source.stage moved).Taken) :
      (Function.update s.source.stage moved stage cb).Taken := by
    have apart : cb ≠ moved := fun same => before (same ▸ taken)
    rwa [Function.update_of_ne apart]
  cases step with
  | begin idle begins =>
      cases begins with
      | register fresh => exact other (by rw [fresh]; exact id)
      | remove | requestStop => exact taken
  | move move =>
      have ok := inv.calls i
      generalize s.calls i = call at move ok
      cases move with
      | register move =>
          cases move with
          | push =>
              have stage : s.source.stage _ = .registering i := ok.1
              exact other (by rw [stage]; exact id)
          | execute =>
              have stage : s.source.stage _ = .registering i := ok
              exact other (by rw [stage]; exact id)
          | load | lose | win | unlock | finish => exact taken
      | remove move =>
          cases move with
          | unlink attached =>
              have listed := inv.listed_of_prev ok.2.1 ok.2.2.1 attached
              exact other (by rw [listed]; exact id)
          | load | lose | win | taken | unlock | wait => exact taken
      | requestStop move =>
          cases move with
          | take head => exact other (by rw [inv.head_listed head]; exact id)
          | @execute tmp =>
              change (Function.update s.source.stage tmp (.ran i) cb).Taken
              rw [Function.update_apply]
              split
              · trivial
              · exact taken
          | load | lose | win | notify | release | complete | relock | loseRelock | winRelock
          | last | finish => exact taken

/-- A removal waits for a callback that some request has taken. -/
theorem waiting_taken (reachable : (system Id).Reachable s) :
    ∀ {j cb pc}, s.calls j = .remove cb pc → pc.isWaiting = true →
      (s.source.stage cb).Taken := by
  induction reachable with
  | init initial =>
      obtain rfl := initial
      intro j cb pc call
      exact absurd call nofun
  | @step s next i earlier step inductionHypothesis =>
      intro j cb pc call waiting
      have inv := inv_of_reachable earlier
      by_cases mine : j = i
      · subst mine
        have taken : (s.source.stage cb).Taken := by
          cases step with
          | @begin after begun idle begins =>
              have same : begun = .remove cb pc :=
                (Function.update_self j begun s.calls).symm.trans call
              cases begins <;> cases same
              exact absurd waiting nofun
          | @move after moved move =>
              have same : moved = .remove cb pc :=
                (Function.update_self j moved s.calls).symm.trans call
              generalize known : s.calls j = before at move
              cases move with
              | register | requestStop => exact absurd same nofun
              | remove move =>
                  cases same
                  have ok := inv.calls j
                  rw [known] at ok
                  cases move with
                  | load | lose =>
                      unfold lockNext at waiting
                      split at waiting <;> exact absurd waiting nofun
                  | win | unlink | wait => exact absurd waiting nofun
                  | taken detached => exact inv.taken_of_detached ok.2.1 ok.2.2.1 detached
                  | @unlock prev waits =>
                      cases waits with
                      | false => exact absurd waiting nofun
                      | true => exact inductionHypothesis known rfl
        exact inv.taken_stays step taken
      · rw [step_other step mine] at call
        exact inv.taken_stays step (inductionHypothesis call waiting)

/-- It leaves the loop when it likes, or the request has the callback in hand. -/
theorem subject_of_waiting (reachable : (system Id).Reachable s)
    (waits : s.calls i = .remove cb .wait) :
    s.source.completed cb = true ∨ ∃ j, (s.calls j).subject = some cb := by
  have inv := inv_of_reachable reachable
  have taken := waiting_taken reachable waits rfl
  cases stage : s.source.stage cb with
  | taken j =>
      rcases inv.taken cb j stage with release | execute
      · exact .inr ⟨j, release ▸ rfl⟩
      · exact .inr ⟨j, execute ▸ rfl⟩
  | ran j =>
      rcases (inv.ran cb j stage).2 with completed | executing
      · exact .inl completed
      · exact .inr ⟨j, executing ▸ rfl⟩
  | fresh | registering j | listed | removed | ranInside j =>
      rw [stage] at taken
      exact taken.elim

end Waiting

section Work

variable {Id : Type}

/-- A bound on the steps that a call still makes, a test of a locked word apart, and the
callbacks apart that it is yet to take. -/
@[simp]
def RegisterPc.work : RegisterPc → Nat
  | .load | .exchange => 8
  | .push => 7
  | .execute => 2
  | .unlock | .executing => 1
  | .returned _ => 0

@[simp]
def RemovePc.work : RemovePc → Nat
  | .load | .exchange _ => 4
  | .unlink _ => 3
  | .unlock _ _ => 2
  | .wait => 1
  | .returned => 0

@[simp]
def RequestPc.work : RequestPc → Nat
  | .release _ => 6
  | .execute _ => 5
  | .load | .exchange | .executing _ => 4
  | .notify | .relock | .relockExchange _ => 3
  | .test => 2
  | .finish => 1
  | .returned _ => 0

@[simp]
def Call.work : Call → Nat
  | .idle => 0
  | .register _ pc => pc.work
  | .remove _ pc => pc.work
  | .requestStop pc => pc.work

/-- The positions of `_M_request_stop` behind the exchange that sets the stop flag. -/
def RequestPc.stopped : RequestPc → Bool
  | .load | .exchange | .returned true => false
  | _ => true

def Stage.isListed : Stage Id → Bool
  | .listed => true
  | _ => false

/-- How many callbacks are in the list. -/
def Source.listed (source : Source Id) : Nat :=
  source.registered.countP fun cb => (source.stage cb).isListed

/-- The work left to a call, and to a request for the callbacks in the list. -/
def effort (source : Source Id) (call : Call) : Nat := call.work + 5 * source.listed

variable {s : State Id} {i : Id} {after : Source Id} {cb : Callback} {stage : Stage Id}

theorem Stage.isListed_eq_false {stage : Stage Id} (other : stage ≠ .listed) :
    stage.isListed = false := by
  cases stage <;> first | rfl | exact absurd rfl other

/-- A step that moves no callback into the list or out of it. -/
theorem listed_advance (registered : after.registered = s.source.registered)
    (changed : after.stage = Function.update s.source.stage cb stage)
    (outside : s.source.stage cb ≠ .listed) (stays : stage ≠ .listed) :
    after.listed = s.source.listed := by
  unfold Source.listed
  rw [registered, changed]
  apply List.countP_congr
  intro other _
  by_cases same : other = cb
  · rw [same, Function.update_self, Stage.isListed_eq_false outside,
      Stage.isListed_eq_false stays]
  · rw [Function.update_of_ne same]

theorem Inv.listed_push (inv : Inv s) (registering : s.source.stage cb = .registering i)
    (registered : after.registered = s.source.registered ++ [cb])
    (changed : after.stage = Function.update s.source.stage cb .listed) :
    after.listed = s.source.listed + 1 := by
  have fresh : cb ∉ s.source.registered := by
    rw [inv.registered, registering]
    exact id
  have others : s.source.registered.countP (fun other => (after.stage other).isListed) =
      s.source.listed := by
    apply List.countP_congr
    intro other member
    have apart : other ≠ cb := fun same => fresh (same ▸ member)
    rw [changed, Function.update_of_ne apart]
  unfold Source.listed
  rw [registered, List.countP_append, others, changed]
  simp [Stage.isListed, Source.listed]

theorem Inv.listed_take (inv : Inv s) (listed : s.source.stage cb = .listed)
    (registered : after.registered = s.source.registered)
    (changed : after.stage = Function.update s.source.stage cb stage)
    (leaves : stage ≠ .listed) : after.listed < s.source.listed := by
  have member : cb ∈ s.source.registered := by
    rw [inv.registered, listed]
    trivial
  obtain ⟨front, back, split⟩ := List.append_of_mem member
  have fewer (part : List Callback) :
      part.countP (fun other => (after.stage other).isListed) ≤
        part.countP fun other => (s.source.stage other).isListed := by
    apply List.countP_mono_left
    intro other _ still
    by_cases same : other = cb
    · rw [same, listed]
      rfl
    · rwa [changed, Function.update_of_ne same] at still
  have gone : (after.stage cb).isListed = false := by
    rw [changed, Function.update_self, Stage.isListed_eq_false leaves]
  have there : (s.source.stage cb).isListed = true := by
    rw [listed]
    rfl
  unfold Source.listed
  rw [registered, split, List.countP_append, List.countP_append,
    List.countP_cons_of_neg (by simp [gone]), List.countP_cons_of_pos (by simp [there])]
  have before := fewer front
  have behind := fewer back
  omega

end Work

section Works

variable {Id : Type} {s : State Id} {source middle after : Source Id} {i : Id}
  {cb : Callback} {call next last : Call}

/-- Steps of one call, from one source and position to another. -/
def Goes (i : Id) (start finish : Source Id × Call) : Prop :=
  Move start.1 i start.2 finish.1 finish.2

/-- A call can make steps of its own that leave less work. -/
def Works (source : Source Id) (i : Id) (call : Call) : Prop :=
  ∃ after next, Relation.TransGen (Goes i) (source, call) (after, next) ∧
    effort after next < effort source call

theorem works_once (move : Move source i call after next)
    (less : effort after next < effort source call) : Works source i call :=
  ⟨after, next, .single move, less⟩

theorem works_plain (move : Move source i call after next) (same : after.listed = source.listed)
    (less : next.work < call.work) : Works source i call := by
  apply works_once move
  unfold effort
  omega

theorem works_fewer (move : Move source i call after next)
    (fewer : after.listed < source.listed) (less : next.work < call.work + 5) :
    Works source i call := by
  apply works_once move
  unfold effort
  omega

/-- A step that brings no more work, before others that leave less. -/
theorem works_first (move : Move source i call middle next)
    (works : Works middle i next) (bounded : effort middle next ≤ effort source call) :
    Works source i call := by
  obtain ⟨after, last, run, less⟩ := works
  have first : Goes i (source, call) (middle, next) := move
  exact ⟨after, last, .head first run, Nat.lt_of_lt_of_le less bounded⟩

theorem Inv.state_of_free (inv : Inv s) (free : s.source.holder = none) :
    s.source.state = noneFlag ∨ s.source.state = stopRequestedFlag := by
  have value : s.source.state = word (!s.source.setters.isEmpty) false := by
    rw [inv.state, free]
    rfl
  cases empty : s.source.setters.isEmpty with
  | true =>
      rw [empty] at value
      exact .inl (value.trans (by decide))
  | false =>
      rw [empty] at value
      exact .inr (value.trans (by decide))

theorem Inv.register_works (inv : Inv s) {pc : RegisterPc} (known : s.calls i = .register cb pc)
    (inside : (Call.register cb pc).isReturned = false)
    (free : (Call.register cb pc).spins = true → s.source.holder = none) :
    Works s.source i (.register cb pc) := by
  have ok : RegisterOk s.source i cb pc := by
    have ok := inv.calls i
    rwa [known] at ok
  have refused (stopped : s.source.state = stopRequestedFlag) :
      tryNext s.source.state RegisterPc.execute .exchange .load = .execute := by
    rw [stopped]
    rfl
  have wins (unset : s.source.state = noneFlag) : Works s.source i (.register cb .exchange) :=
    works_plain (.register (.win unset)) rfl (by simp)
  cases pc with
  | load =>
      rcases inv.state_of_free (free rfl) with unset | stopped
      · have first : Move s.source i (.register cb .load) s.source (.register cb .exchange) := by
          have move : Move s.source i (.register cb .load) s.source _ := .register .load
          rwa [unset] at move
        exact works_first first (wins unset) (Nat.le_refl _)
      · exact works_plain (.register .load) rfl (by rw [refused stopped]; simp)
  | exchange =>
      rcases inv.state_of_free (free rfl) with unset | stopped
      · exact wins unset
      · exact works_plain (.register .lose) rfl (by rw [refused stopped]; simp)
  | push =>
      apply works_once (.register .push)
      unfold effort
      rw [inv.listed_push ok.1 rfl rfl]
      simp only [Call.work, RegisterPc.work]
      omega
  | unlock => exact works_plain (.register .unlock) rfl (by simp)
  | execute =>
      have stage : s.source.stage cb = .registering i := ok
      apply works_plain (.register .execute)
      · exact listed_advance rfl rfl (by rw [stage]; exact nofun) nofun
      · simp
  | executing => exact works_plain (.register .finish) rfl (by simp)
  | returned pushed => exact absurd inside nofun

theorem Inv.remove_works (inv : Inv s) {pc : RemovePc} (known : s.calls i = .remove cb pc)
    (inside : (Call.remove cb pc).isReturned = false)
    (free : (Call.remove cb pc).spins = true → s.source.holder = none)
    (completed : pc = .wait → s.source.completed cb = true) :
    Works s.source i (.remove cb pc) := by
  have ok := inv.calls i
  rw [known] at ok
  have wins : Works s.source i (.remove cb (.exchange s.source.state)) :=
    works_plain (.remove (.win rfl)) rfl (by simp)
  have again (unlocked : s.source.holder = none) :
      lockNext s.source.state RemovePc.exchange .load = .exchange s.source.state := by
    rcases inv.state_of_free unlocked with unset | stopped
    · rw [unset]
      rfl
    · rw [stopped]
      rfl
  cases pc with
  | load =>
      have first : Move s.source i (.remove cb .load) s.source _ := .remove .load
      rw [again (free rfl)] at first
      exact works_first first wins (Nat.le_refl _)
  | exchange prev =>
      have first : Move s.source i (.remove cb (.exchange prev)) s.source _ := .remove .lose
      rw [again (free rfl)] at first
      exact works_first first wins (Nat.le_refl _)
  | unlink prev =>
      cases link : s.source.list.prev cb with
      | none => exact works_plain (.remove (.taken link)) rfl (by simp)
      | some slot =>
          have listed := inv.listed_of_prev ok.2.1 ok.2.2.1 link
          exact works_fewer (.remove (.unlink link)) (inv.listed_take listed rfl rfl nofun)
            (by simp)
  | unlock prev waits =>
      apply works_plain (.remove .unlock) rfl
      cases waits <;> simp
  | wait => exact works_plain (.remove (.wait (completed rfl))) rfl (by simp)
  | returned => exact absurd inside nofun

theorem Inv.request_works (inv : Inv s) {pc : RequestPc} (known : s.calls i = .requestStop pc)
    (inside : (Call.requestStop pc).isReturned = false)
    (free : (Call.requestStop pc).spins = true → s.source.holder = none) :
    Works s.source i (.requestStop pc) := by
  have ok : RequestOk s.source i pc := by
    have ok := inv.calls i
    rwa [known] at ok
  have refused (stopped : s.source.state = stopRequestedFlag) :
      tryNext s.source.state (RequestPc.returned true) .exchange .load = .returned true := by
    rw [stopped]
    rfl
  have wins (unset : s.source.state = noneFlag) : Works s.source i (.requestStop .exchange) :=
    works_plain (.requestStop (.win unset)) rfl (by simp)
  have relocks : Works s.source i (.requestStop (.relockExchange s.source.state)) :=
    works_plain (.requestStop (.winRelock rfl)) rfl (by simp)
  have again (unlocked : s.source.holder = none) :
      lockNext s.source.state RequestPc.relockExchange .relock =
        .relockExchange s.source.state := by
    rcases inv.state_of_free unlocked with unset | stopped
    · rw [unset]
      rfl
    · rw [stopped]
      rfl
  cases pc with
  | load =>
      rcases inv.state_of_free (free rfl) with unset | stopped
      · have first : Move s.source i (.requestStop .load) s.source (.requestStop .exchange) := by
          have move : Move s.source i (.requestStop .load) s.source _ := .requestStop .load
          rwa [unset] at move
        exact works_first first (wins unset) (Nat.le_refl _)
      · exact works_plain (.requestStop .load) rfl (by rw [refused stopped]; simp)
  | exchange =>
      rcases inv.state_of_free (free rfl) with unset | stopped
      · exact wins unset
      · exact works_plain (.requestStop .lose) rfl (by rw [refused stopped]; simp)
  | notify => exact works_plain (.requestStop .notify) rfl (by simp)
  | test =>
      cases head : s.source.list.head with
      | none => exact works_plain (.requestStop (.last head)) rfl (by simp)
      | some tmp =>
          exact works_fewer (.requestStop (.take head))
            (inv.listed_take (inv.head_listed head) rfl rfl nofun) (by simp)
  | release tmp => exact works_plain (.requestStop .release) rfl (by simp)
  | execute tmp =>
      apply works_plain (.requestStop .execute)
      · exact listed_advance rfl rfl (by rw [ok.2]; exact nofun) nofun
      · simp
  | executing tmp => exact works_plain (.requestStop .complete) rfl (by simp)
  | relock =>
      have first : Move s.source i (.requestStop .relock) s.source _ := .requestStop .relock
      rw [again (free rfl)] at first
      exact works_first first relocks (Nat.le_refl _)
  | relockExchange prev =>
      have first : Move s.source i (.requestStop (.relockExchange prev)) s.source _ :=
        .requestStop .loseRelock
      rw [again (free rfl)] at first
      exact works_first first relocks (Nat.le_refl _)
  | finish => exact works_plain (.requestStop .finish) rfl (by simp)
  | returned result => exact absurd inside nofun

/-- A call that has not returned works on, unless it waits for a callback or for the lock. -/
theorem Inv.works (inv : Inv s) (begun : s.calls i ≠ .idle)
    (inside : (s.calls i).isReturned = false)
    (free : (s.calls i).spins = true → s.source.holder = none)
    (completed : ∀ cb, s.calls i = .remove cb .wait → s.source.completed cb = true) :
    Works s.source i (s.calls i) := by
  cases known : s.calls i with
  | idle => exact absurd known begun
  | register cb pc =>
      rw [known] at inside free
      exact inv.register_works known inside free
  | remove cb pc =>
      rw [known] at inside free
      exact inv.remove_works known inside free fun wait => completed cb (wait ▸ known)
  | requestStop pc =>
      rw [known] at inside free
      exact inv.request_works known inside free

end Works

section Stopped

variable {Id : Type} {s : State Id} {after : Source Id} {i j : Id} {call : Call}
  {pc next : RequestPc}

theorem RequestMove.stopped (move : RequestMove s.source i pc after next)
    (stopped : pc.stopped = true) : next.stopped = true := by
  cases move with
  | load | lose | win => exact absurd stopped nofun
  | relock | loseRelock =>
      unfold lockNext
      split <;> rfl
  | notify | take | release | execute | complete | winRelock | last | finish => rfl

theorem Inv.setter_of_stopped (inv : Inv s) (known : s.calls i = .requestStop pc)
    (stopped : pc.stopped = true) : i ∈ s.source.setters := by
  have ok := inv.calls i
  rw [known] at ok
  cases pc with
  | load | exchange => exact absurd stopped nofun
  | notify | test | relock => exact ok
  | release | execute | executing | relockExchange | finish => exact ok.1
  | returned result =>
      cases result with
      | false => exact ok.1
      | true => exact absurd stopped nofun

theorem Inv.taken_of_subject (inv : Inv s) {cb : Callback}
    (subject : (s.calls i).subject = some cb) : (s.source.stage cb).Taken := by
  have ok := inv.calls i
  generalize s.calls i = call at subject ok
  cases call with
  | idle | register | remove => exact absurd subject nofun
  | requestStop pc =>
      cases pc with
      | release tmp | execute tmp | executing tmp =>
          obtain rfl : tmp = cb := Option.some.inj subject
          rw [ok.2]
          trivial
      | load | exchange | notify | test | relock | relockExchange | finish | returned =>
          exact absurd subject nofun

/-- The callbacks registered when stop was requested stay those. -/
theorem Inv.atStop_eq (inv : Inv s) (set : s.source.setters ≠ [])
    (move : Move s.source i (s.calls i) after call) : after.atStop = s.source.atStop := by
  generalize s.calls i = before at move
  cases move with
  | register move => cases move <;> rfl
  | remove move => cases move <;> rfl
  | requestStop move =>
      cases move with
      | win unset => exact absurd (inv.free_of_none unset).1 set
      | load | lose | notify | take | release | execute | complete | relock | loseRelock
      | winRelock | last | finish => rfl

end Stopped

end NgrCore.StopSource
