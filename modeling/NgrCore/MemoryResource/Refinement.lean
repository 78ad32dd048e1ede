import NgrCore.LocalSource.Overlap
import NgrCore.MemoryResource.Alone
import NgrCore.MemoryResource.Exits

/-!
Owns the local sources of the pool as a run of `LocalSource.system`, whose remote source hands
out only blocks that nobody has.

A thread gives its block away when `_M_push` links it. Another thread may take it from there
before the call returns, so in the run of the local sources the call ends with the link.
-/

namespace NgrCore.MemoryResource

open NgrCore.Library NgrCore.RemoteSource
open NgrCore.LocalSource (Move Pc Source)

section Definitions

/-- Where a thread stands in its local source, if a call of `_M_push` ends with the link. -/
def settledPc (source : Source) : Remote → Pc → Pc
  | .push (.push _ (.publish _)), .giving _ resume => source.resume resume
  | .push (.returned _), .giving _ resume => source.resume resume
  | _, pc => pc

variable {Thread : Type}

/-- The local sources, if a call of `_M_push` ends with the link. -/
def State.settled (s : State Thread) : LocalSource.State Thread :=
  { s.heap with pc := fun t => settledPc (s.heap.source t) (s.remote t) (s.heap.pc t) }

/-- A call of `_M_push` has the block that the thread gives away. -/
def Giving (s : State Thread) : Prop :=
  ∀ t call, s.remote t = .push call → ∃ blk resume, s.heap.pc t = .giving blk resume ∧
    (call = .returned [] ∨ ∃ pc, call = .push blk pc)

end Definitions

section Frame

variable {Thread : Type} [DecidableEq Thread] {heap after : LocalSource.State Thread}
  {t : Thread} {action : LocalSource.Action}

/-- A step does not see where the other threads stand. -/
theorem reframe (move : Move heap t action after) (pc : Thread → Pc)
    (mine : pc t = heap.pc t) :
    Move { heap with pc } t action { after with pc := Function.update pc t (after.pc t) } := by
  have moved (next : LocalSource.State Thread) (there : Pc) :
      { next.go t there with pc := Function.update pc t ((next.go t there).pc t) } =
        { next with pc }.go t there := by
    simp [LocalSource.State.go]
  have recycled (next : LocalSource.State Thread) (blk : Addr) (resume : Option Nat) :
      { next.recycle t blk resume with
        pc := Function.update pc t ((next.recycle t blk resume).pc t) } =
        { next with pc }.recycle t blk resume := by
    simp only [LocalSource.State.recycle]
    split
    · exact moved _ _
    · exact moved _ _
  cases move with
  | acquire idle positive small =>
      rw [moved]
      exact .acquire (mine.trans idle) positive small
  | dropLast here owned last =>
      rw [recycled]
      exact .dropLast (mine.trans here) owned last
  | drop here owned shared =>
      rw [moved]
      exact .drop (mine.trans here) owned shared
  | give here =>
      rw [moved]
      exact .give (mine.trans here)
  | refill here some =>
      rw [moved]
      exact .refill (mine.trans here) some
  | consume here queue =>
      have consumed := Move.consume (s := { heap with pc }) (mine.trans here) queue
      simpa [LocalSource.State.go, LocalSource.State.setSource, LocalSource.State.addUse]
        using consumed
  | take here owned =>
      have taken := Move.take (s := { heap with pc }) (mine.trans here) owned
      simpa [LocalSource.State.acquired, LocalSource.State.go, LocalSource.State.setSource,
        LocalSource.State.addUse] using taken
  | releaseLast idle held last =>
      rw [recycled]
      exact .releaseLast (mine.trans idle) held last
  | release idle held shared =>
      have released := Move.release (s := { heap with pc }) (mine.trans idle) held shared
      have same : Function.update pc t (heap.pc t) = pc := by
        rw [← mine, Function.update_eq_self]
      simpa [LocalSource.State.addUse, same] using released
  | exitOwner idle owned =>
      rw [moved]
      exact .exitOwner (mine.trans idle) owned
  | exit idle owned =>
      rw [moved]
      exact .exit (mine.trans idle) owned

end Frame

section Pool

variable {Thread : Type} [DecidableEq Thread] {s after : State Thread} {t : Thread}
  {action : Action}

theorem Giving.step (giving : Giving s) (step : Act s t action after) : Giving after := by
  intro u call pushing
  by_cases mine : u = t
  · subst mine
    have here {next : State Thread} {remote : Remote}
        (pushing : (next.go u remote).remote u = .push call) : remote = .push call :=
      (Function.update_self _ _ _).symm.trans pushing
    cases step with
    | thread idle own move =>
        change s.remote u = _ at pushing
        cases idle.symm.trans pushing
    | mapFailed pc => cases pc.symm.trans pushing
    | @beginPush blk resume pc idle =>
        cases here pushing
        exact ⟨blk, resume, pc, .inr ⟨.load, rfl⟩⟩
    | @push before next _ ring pc move =>
        cases here pushing
        obtain ⟨blk, resume, stands, calling⟩ := giving u before pc
        refine ⟨blk, resume, stands, ?_⟩
        rcases calling with rfl | ⟨stage, rfl⟩
        · cases move
        · cases move with
          | push move =>
              cases move with
              | link =>
                  split
                  · exact .inr ⟨_, rfl⟩
                  · exact .inl rfl
              | publish => exact .inl rfl
              | _ => exact .inr ⟨_, rfl⟩
    | _ => cases here pushing
  · obtain ⟨remote, pc, _⟩ := step.others u mine
    rw [pc]
    exact giving u call (remote.symm.trans pushing)

omit [DecidableEq Thread] in
/-- What is in the queue of a thread, or in its hands, has its place there. -/
theorem Giving.free_held (giving : Giving s) (fits : (s.remote t).Fits (s.heap.pc t))
    {blk : Addr} (free : blk ∈ s.settled.free t) : blk ∈ s.holding t := by
  have settled : s.settled.free t =
      (settledPc (s.heap.source t) (s.remote t) (s.heap.pc t)).free (s.heap.source t) := rfl
  by_cases idle : s.remote t = .idle
  · rw [settled, idle] at free
    rw [holding_idle idle]
    exact free
  · rw [holding_eq rfl idle]
    cases remote : s.remote t with
    | push call =>
        obtain ⟨own, resume, stands, calling⟩ := giving t call remote
        rw [settled, remote, stands] at free
        rcases calling with rfl | ⟨stage, rfl⟩
        · rw [settledPc, LocalSource.free_resume] at free
          exact List.mem_append_right _ free
        · cases stage with
          | publish e =>
              rw [settledPc, LocalSource.free_resume] at free
              exact List.mem_append_right _ free
          | _ => exact free
    | idle => exact absurd remote idle
    | prepend call =>
        rw [remote] at fits
        obtain ⟨⟨n, popping⟩, _⟩ := fits
        rw [settled, remote, popping] at free
        exact List.mem_append_right _ free
    | _ =>
        rw [remote] at fits
        obtain ⟨n, popping⟩ := fits
        rw [settled, remote, popping] at free
        exact List.mem_append_right _ free

/-- A batch that a thread has popped is unused and in no queue. -/
theorem Giving.unheld (giving : Giving s) {lost : List Addr} (kept : Kept (s.withHeir lost))
    {spin : Nat} {batch : List Addr} (pc : s.remote t = .pop spin (.returned batch)) :
    s.settled.Unheld batch := by
  have mine : (s.withHeir lost).blocks (.thread (some t)) = batch ++ (s.heap.source t).queue :=
    holding_eq (s := s.withHeir lost) (t := some t) pc nofun
  have here (blk : Addr) (member : blk ∈ batch) :
      blk ∈ (s.withHeir lost).blocks (.thread (some t)) := by
    rw [mine]
    exact List.mem_append_left _ member
  have distinct := kept.placed.nodup (.thread (some t))
  rw [mine, List.nodup_append] at distinct
  refine ⟨distinct.1, fun blk member =>
    ⟨((kept.placed.pool blk).mp ⟨_, here blk member⟩).2, fun u listed => ?_⟩⟩
  by_cases same : u = t
  · obtain ⟨n, popping⟩ : ∃ n, s.heap.pc t = .popping n := by
      have fits : (s.remote t).Fits (s.heap.pc t) := kept.fits (some t)
      rw [pc] at fits
      exact fits
    have queued : blk ∈ (s.heap.source t).queue := by
      have free : s.settled.free t = (settledPc (s.heap.source t) (s.remote t)
        (s.heap.pc t)).free (s.heap.source t) := rfl
      rw [same, free, pc, popping] at listed
      exact listed
    exact distinct.2.2 blk member blk queued rfl
  · have there : blk ∈ (s.withHeir lost).blocks (.thread (some u)) :=
      giving.free_held (kept.fits (some u)) listed
    cases kept.placed.apart _ _ blk (here blk member) there
    exact same rfl

/-! ### The refinement -/

omit [DecidableEq Thread] in
/-- The blocks of a region under construction are not used. -/
theorem Kept.unused_region {lost : List Addr} (kept : Kept (s.withHeir lost)) {index : Nat}
    {p : Addr} (pc : s.remote t = .store index p) {blk : Addr} (member : blk ∈ blocksOf p) :
    s.heap.useCount blk = 0 := by
  by_contra used
  obtain ⟨q, known, inside, nobody⟩ := kept.known blk used
  have region : ((s.withHeir lost).remote (some t)).region = some p := congrArg Remote.region pc
  have same := kept.regions.eq_of_mem known (kept.regions.known _ p region) inside member
  exact nobody (some t) (same ▸ region)

theorem go_self (heap : LocalSource.State Thread) : heap.go t (heap.pc t) = heap := by
  simp [LocalSource.State.go]

/-- A thread moves on, within the remote source and in its local source. -/
theorem settled_update {pc : Pc} {remote : Remote} :
    ({ s with heap := s.heap.go t pc }.go t remote).settled =
      s.settled.go t (settledPc (s.heap.source t) remote pc) := by
  have stands : ({ s with heap := s.heap.go t pc }.go t remote).settled.pc =
      Function.update s.settled.pc t (settledPc (s.heap.source t) remote pc) := by
    funext u
    change settledPc (s.heap.source u) (Function.update s.remote t remote u)
      (Function.update s.heap.pc t pc u) = _
    by_cases mine : u = t
    · rw [mine, Function.update_self, Function.update_self, Function.update_self]
    · rw [Function.update_of_ne mine, Function.update_of_ne mine, Function.update_of_ne mine]
      rfl
  exact congrArg (fun pc => { s.heap with pc }) stands

/-- A thread moves on within the remote source only. -/
theorem settled_remote {remote : Remote} : (s.go t remote).settled =
    s.settled.go t (settledPc (s.heap.source t) remote (s.heap.pc t)) := by
  rw [← settled_update, go_self]

theorem settled_go {remote : Remote}
    (same : settledPc (s.heap.source t) remote (s.heap.pc t) =
      settledPc (s.heap.source t) (s.remote t) (s.heap.pc t)) :
    (s.go t remote).settled = s.settled := by
  rw [settled_remote, same]
  exact go_self s.settled

theorem settled_move {action : LocalSource.Action} {heap : LocalSource.State Thread}
    (remote : Remote) (move : Move s.heap t action heap)
    (before : settledPc (s.heap.source t) (s.remote t) (s.heap.pc t) = s.heap.pc t)
    (now : settledPc (heap.source t) remote (heap.pc t) = heap.pc t) :
    Move s.settled t action ({ s with heap }.go t remote).settled := by
  have pc : ({ s with heap }.go t remote).settled.pc =
      Function.update s.settled.pc t (heap.pc t) := by
    funext u
    change settledPc (heap.source u) (Function.update s.remote t remote u) (heap.pc u) = _
    by_cases mine : u = t
    · rw [mine, Function.update_self, Function.update_self]
      exact now
    · rw [Function.update_of_ne mine, Function.update_of_ne mine, (move.others u mine).1,
        (move.others u mine).2]
      rfl
  have moved := reframe move s.settled.pc before
  rw [← pc] at moved
  exact moved

omit [DecidableEq Thread] in
theorem settledPc_popping {source : Source} {remote : Remote} {pc : Pc} {n : Nat}
    (popping : pc = .popping n) : settledPc source remote pc = pc := by
  rw [popping]
  unfold settledPc
  split <;> first | rfl | contradiction

/-- A step of the pool is one of the local sources, or none. -/
theorem Act.refines (step : Act s t action after) (giving : Giving s) {lost : List Addr}
    (kept : Kept (s.withHeir lost)) : after.settled = s.settled ∨
      ∃ own, (LocalSource.system Thread).Step s.settled (t, own) after.settled := by
  have fits : (s.remote t).Fits (s.heap.pc t) := kept.fits (some t)
  have popping (remote : Remote) (waits : ∃ n, s.heap.pc t = .popping n) :
      settledPc (s.heap.source t) remote (s.heap.pc t) =
        settledPc (s.heap.source t) (s.remote t) (s.heap.pc t) := by
    obtain ⟨n, here⟩ := waits
    rw [settledPc_popping here, settledPc_popping here]
  cases step with
  | @thread action heap idle own move =>
      have still : ({ s with heap }.go t .idle) = { s with heap } := by
        unfold State.go
        rw [← idle]
        exact congrArg (fun remote => { s with heap, remote }) (Function.update_eq_self t s.remote)
      have moved := settled_move .idle move (by rw [idle]; rfl) rfl
      rw [still] at moved
      refine .inr ⟨action, moved, fun batch same => ?_⟩
      rcases own with rfl | rfl
      · cases same
      · cases same
  | beginPop pc idle => exact .inl (settled_go (popping _ ⟨_, pc⟩))
  | tryPop pc move =>
      rw [pc] at fits
      exact .inl (settled_go (popping _ fits))
  | @refill spin batch heap pc some move =>
      rw [pc] at fits
      obtain ⟨n, waits⟩ := fits
      have moved := settled_move .idle move (settledPc_popping waits) rfl
      refine .inr ⟨.refill batch, moved, fun other same => ?_⟩
      cases same
      exact giving.unheld kept pc
  | spin pc below =>
      rw [pc] at fits
      exact .inl (settled_go (popping _ fits))
  | giveUp pc reached =>
      rw [pc] at fits
      exact .inl (settled_go (popping _ fits))
  | map pc fresh =>
      rw [pc] at fits
      exact .inl (settled_go (popping _ fits))
  | mapFailed pc => exact .inl rfl
  | claim pc =>
      rw [pc] at fits
      exact .inl (settled_go (popping _ fits))
  | @store index p pc =>
      have unused {blk : Addr} (inside : blk ∈ blocksOf p) := kept.unused_region pc inside
      have heap : (s.construct index p).heap = s.heap := by
        have same : (fun blk => if blk ∈ blocksOf p then 0 else s.heap.useCount blk) =
            s.heap.useCount := by
          funext blk
          split
          next inside => exact (unused inside).symm
          next => rfl
        exact congrArg (fun useCount => { s.heap with useCount }) same
      rw [pc] at fits
      refine .inl ?_
      change ({ (s.construct index p).heap with pc := _ } : LocalSource.State Thread) = _
      rw [heap]
      exact settled_go (popping (.prepend (.prependFrom (blocksOf p) 0)) fits)
  | prepend pc move =>
      rw [pc] at fits
      exact .inl (settled_go (popping _ fits.1))
  | prepended pc =>
      rw [pc] at fits
      exact .inl (settled_go (popping _ fits.1))
  | beginPush pc idle =>
      refine .inl (settled_go ?_)
      rw [idle, pc]
      rfl
  | @push call next _ ring pc move =>
      obtain ⟨blk, resume, stands, calling⟩ := giving t call pc
      rcases calling with rfl | ⟨stage, rfl⟩
      · cases move
      · have before : s.settled.pc t = settledPc (s.heap.source t) (.push (.push blk stage))
            (.giving blk resume) := by
          rw [← stands, ← pc]
          rfl
        cases move with
        | push move =>
            cases move with
            | @link e n old expected =>
                refine .inr ⟨.give blk, ?_, nofun⟩
                have linked : settledPc (s.heap.source t)
                    (.push (if (n + 1) % 2 ^ 64 = T then .push blk (.publish e)
                      else .returned [])) (s.heap.pc t) = (s.heap.source t).resume resume := by
                  rw [stands]
                  split <;> rfl
                change Move s.settled t _ (s.go t _).settled
                rw [settled_remote, linked]
                exact .give before
            | _ =>
                refine .inl (settled_go ?_)
                rw [pc, stands]
                rfl
  | pushed pc move =>
      cases move with
      | give stands =>
          have returned : s.settled.pc t = settledPc (s.heap.source t) (s.remote t)
              (s.heap.pc t) := rfl
          rw [pc, stands] at returned
          refine .inl (settled_update.trans ?_)
          rw [show settledPc (s.heap.source t) .idle _ = s.settled.pc t from returned.symm]
          exact go_self s.settled

end Pool

end NgrCore.MemoryResource
