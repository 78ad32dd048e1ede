import NgrCore.MemoryResource.Placement

/-!
Owns what the exit of a thread does to the places of the blocks. The blocks that exits have
lost are given to one more thread, which never moves; with it, every run is one in which
each unused block is in one place.
-/

namespace NgrCore.MemoryResource

open NgrCore.Library NgrCore.RemoteSource
open NgrCore.LocalSource (Move Pc)

section Definitions

variable {Thread : Type}

/-- A family with one more member. -/
def extend {α : Type} (own : α) (others : Thread → α) : Option Thread → α
  | none => own
  | some t => others t

/-- The local sources with one more thread, which has the blocks that are lost. -/
def heirHeap (heap : LocalSource.State Thread) (lost : List Addr) :
    LocalSource.State (Option Thread) where
  useCount := heap.useCount
  source := extend { queue := lost } heap.source
  pc := extend .idle heap.pc
  live := heap.live
  entries := heap.entries
  history := extend [] heap.history

/-- The pool with one more thread, which has the blocks that are lost. -/
def State.withHeir (s : State Thread) (lost : List Addr) : State (Option Thread) where
  heap := heirHeap s.heap lost
  ring := s.ring
  n := s.n
  mmap := s.mmap
  remote := extend .idle s.remote
  mapped := s.mapped
  terminated := s.terminated

end Definitions

section Heap

variable {Thread : Type} [DecidableEq Thread] {heap after : LocalSource.State Thread}
  {lost : List Addr} {t : Thread}

theorem extend_update {α : Type} (own : α) (others : Thread → α) (t : Thread) (value : α) :
    Function.update (extend own others) (some t) value =
      extend own (Function.update others t value) := by
  funext u
  cases u with
  | none => rfl
  | some u => simp [extend, Function.update_apply]

theorem heirHeap_go (pc : Pc) :
    (heirHeap heap lost).go (some t) pc = heirHeap (heap.go t pc) lost := by
  simp [LocalSource.State.go, heirHeap, extend_update]

theorem heirHeap_setSource (source : LocalSource.Source) :
    (heirHeap heap lost).setSource (some t) source = heirHeap (heap.setSource t source) lost := by
  simp [LocalSource.State.setSource, heirHeap, extend_update]

omit [DecidableEq Thread] in
theorem heirHeap_addUse (blk : Addr) (change : Int) :
    (heirHeap heap lost).addUse blk change = heirHeap (heap.addUse blk change) lost := rfl

theorem heirHeap_recycle (blk : Addr) (resume : Option Nat) :
    (heirHeap heap lost).recycle (some t) blk resume =
      heirHeap (heap.recycle t blk resume) lost := by
  simp only [LocalSource.State.recycle, heirHeap, extend, LocalSource.State.go,
    LocalSource.State.setSource, extend_update]
  split <;> rfl

theorem heirHeap_acquired (blk : Addr) (n : Nat) :
    (heirHeap heap lost).acquired (some t) blk n = heirHeap (heap.acquired t blk n) lost := by
  simp [LocalSource.State.acquired, heirHeap, extend, LocalSource.State.go,
    LocalSource.State.setSource, extend_update]

theorem heirHeap_move {action : LocalSource.Action} (move : Move heap t action after)
    (lost : List Addr) : Move (heirHeap heap lost) (some t) action (heirHeap after lost) := by
  cases move with
  | acquire idle positive small =>
      rw [← heirHeap_go]
      exact .acquire idle positive small
  | dropLast pc owned last =>
      rw [← heirHeap_recycle, ← heirHeap_addUse]
      exact .dropLast pc owned last
  | drop pc owned shared =>
      rw [← heirHeap_go, ← heirHeap_addUse]
      exact .drop pc owned shared
  | give pc =>
      rw [← heirHeap_go]
      exact .give pc
  | refill pc some =>
      rw [← heirHeap_go, ← heirHeap_setSource]
      exact .refill pc some
  | @consume n blk rest pc queue =>
      have consumed := Move.consume (s := heirHeap heap lost) (t := some t) pc queue
      rw [heirHeap_setSource, heirHeap_addUse, heirHeap_go] at consumed
      exact consumed
  | take pc owned =>
      rw [← heirHeap_acquired, ← heirHeap_addUse]
      exact .take pc owned
  | @releaseLast x idle held last =>
      have released := Move.releaseLast (s := heirHeap heap lost) (t := some t) idle held last
      rw [← heirHeap_recycle]
      exact released
  | release idle held shared => exact .release idle held shared
  | exitOwner idle owned =>
      rw [← heirHeap_go, ← heirHeap_setSource, ← heirHeap_addUse]
      exact .exitOwner idle owned
  | exit idle owned =>
      rw [← heirHeap_go, ← heirHeap_setSource]
      exact .exit idle owned

end Heap

section Pool

variable {Thread : Type} [DecidableEq Thread] {s after : State Thread} {lost : List Addr}
  {t : Thread} {action : Action}

theorem withHeir_go (remote : Remote) :
    (s.withHeir lost).go (some t) remote = (s.go t remote).withHeir lost := by
  simp [State.go, State.withHeir, extend_update]

theorem Act.withHeir (step : Act s t action after) (lost : List Addr) :
    Act (s.withHeir lost) (some t) action (after.withHeir lost) := by
  cases step with
  | thread idle own move => exact .thread idle own (heirHeap_move move lost)
  | beginPop pc idle =>
      rw [← withHeir_go]
      exact .beginPop pc idle
  | tryPop pc move =>
      rw [← withHeir_go]
      exact .tryPop pc move
  | refill pc some move =>
      rw [← withHeir_go]
      exact .refill pc some (heirHeap_move move lost)
  | spin pc below =>
      rw [← withHeir_go]
      exact .spin pc below
  | giveUp pc reached =>
      rw [← withHeir_go]
      exact .giveUp pc reached
  | map pc fresh =>
      rw [← withHeir_go]
      exact .map pc fresh
  | mapFailed pc => exact .mapFailed pc
  | claim pc =>
      rw [← withHeir_go]
      exact .claim pc
  | store pc =>
      rw [← withHeir_go]
      exact .store pc
  | prepend pc move =>
      rw [← withHeir_go]
      exact .prepend pc move
  | prepended pc =>
      rw [← withHeir_go]
      exact .prepended pc
  | beginPush pc idle =>
      rw [← withHeir_go]
      exact .beginPush pc idle
  | push pc move =>
      rw [← withHeir_go]
      exact .push pc move
  | pushed pc move =>
      rw [← withHeir_go]
      exact .pushed pc (heirHeap_move move lost)

omit [DecidableEq Thread] in
theorem blocks_heir (s : State Thread) (lost : List Addr) :
    (s.withHeir lost).blocks (.thread none) = lost := rfl

/-- An idle thread exits. Its queue is lost, and its block with it if nobody else uses it. -/
theorem Kept.leaves (kept : Kept (s.withHeir lost)) (idle : s.remote t = .idle)
    (free : s.heap.pc t = .idle) {heap : LocalSource.State Thread} (more : List Addr)
    (pc : heap.pc = Function.update s.heap.pc t .exited)
    (source : heap.source = Function.update s.heap.source t {})
    (counted : Counted heap.useCount heap.liveOf (heirHeap heap lost).owner)
    (distinct : more.Nodup) (last : ∀ b ∈ more, s.heap.useCount b ≠ 0)
    (unused : ∀ b, heap.useCount b = 0 ↔ s.heap.useCount b = 0 ∨ b ∈ more) :
    Kept ({ s with heap }.withHeir (more ++ ((s.heap.source t).queue ++ lost))) := by
  have others (u : Thread) (apart : u ≠ t) :
      heap.pc u = s.heap.pc u ∧ heap.source u = s.heap.source u := by
    rw [pc, source]
    exact ⟨Function.update_of_ne apart _ _, Function.update_of_ne apart _ _⟩
  have gone : heap.pc t = .exited := by rw [pc, Function.update_self]
  have nothing : heap.source t = {} := by rw [source, Function.update_self]
  have before : (s.withHeir lost).blocks (.thread (some t)) = (s.heap.source t).queue := by
    refine (holding_idle (s := s.withHeir lost) (t := some t) idle).trans ?_
    exact LocalSource.free_eq (s := heirHeap s.heap lost) (t := some t) free rfl
  have after (kept : List Addr) :
      ({ s with heap }.withHeir kept).blocks (.thread (some t)) = [] := by
    refine (holding_idle (s := { s with heap }.withHeir kept) (t := some t) idle).trans ?_
    exact LocalSource.free_eq (s := heirHeap heap kept) (t := some t) gone nothing
  have elsewhere (kept : List Addr) (place : Place (Option Thread))
      (notMine : place ≠ .thread (some t)) (notHeir : place ≠ .thread none) :
      ({ s with heap }.withHeir kept).blocks place = (s.withHeir lost).blocks place := by
    cases place with
    | entry e => rfl
    | thread u =>
        cases u with
        | none => exact absurd rfl notHeir
        | some u =>
            have apart : u ≠ t := fun same => notMine (by rw [same])
            exact holding_congr (s := s.withHeir lost) (u := some u) rfl (others u apart).1
              (others u apart).2
  have bequeathed : Placed _ ({ s with heap }.withHeir ((s.heap.source t).queue ++ lost)).blocks :=
    kept.placed.transfer (.thread (some t)) (.thread none) nofun
      (elsewhere _) (by rw [after, before, blocks_heir, blocks_heir]; rfl)
  have placed : Placed _
      ({ s with heap }.withHeir (more ++ ((s.heap.source t).queue ++ lost))).blocks :=
    bequeathed.insert (.thread none) distinct
      (fun b member known => last b member known.2) rfl fun place notHeir => by
        by_cases mine : place = .thread (some t)
        · rw [mine, after, after]
        · rw [elsewhere _ place mine notHeir, elsewhere _ place mine notHeir]
  have created (b : Addr) :
      ({ s with heap }.withHeir (more ++ ((s.heap.source t).queue ++ lost))).Created b ↔
        (s.withHeir lost).Created b := Iff.rfl
  refine ⟨kept.regions.congr rfl fun _ => rfl, ?_, ?_, ?_, ?_, ?_⟩
  · intro u
    cases u with
    | none => trivial
    | some u =>
        by_cases mine : u = t
        · change (s.remote u).Fits _
          rw [mine, idle]
          trivial
        · change (s.remote u).Fits (heap.pc u)
          rw [(others u mine).1]
          exact kept.fits (some u)
  · intro u out
    cases u with
    | none => cases out
    | some u =>
        by_cases mine : u = t
        · rw [mine]
          exact nothing
        · exact (others u mine).2.trans (kept.left (some u) ((others u mine).1.symm.trans out))
  · refine counted.congr (fun u => ?_) fun _ => rfl
    cases u <;> rfl
  · intro b used
    exact kept.known b fun zero => used ((unused b).mpr (.inl zero))
  · refine placed.of_iff fun b => ?_
    rw [created]
    change _ ↔ _ ∧ heap.useCount b = 0
    rw [unused]
    constructor
    · rintro (⟨made, zero⟩ | member)
      · exact ⟨made, .inl zero⟩
      · exact ⟨kept.known b (last b member), .inr member⟩
    · rintro ⟨made, zero | member⟩
      · exact .inl ⟨made, zero⟩
      · exact .inr member

omit [DecidableEq Thread] in
theorem owner_exited (heap : LocalSource.State Thread) (gone : heap.pc t = .exited)
    (nothing : heap.source t = {}) (lost : List Addr) :
    (heirHeap heap lost).owner (some t) = none :=
  LocalSource.owner_eq (s := heirHeap heap lost) (t := some t) gone nothing

theorem Kept.exit (kept : Kept (s.withHeir lost)) (idle : s.remote t = .idle)
    {heap : LocalSource.State Thread} (move : Move s.heap t .exit heap) :
    ∃ more, Kept ({ s with heap }.withHeir more) := by
  have moved := heirHeap_move move lost
  cases move with
  | @exitOwner blk free owned =>
      have owner : (s.withHeir lost).heap.owner (some t) = some blk :=
        (LocalSource.owner_eq (s := heirHeap s.heap lost) (t := some t) free rfl).trans owned
      have used := kept.use_pos owner
      have mine := owner_exited (((s.heap.addUse blk (-1)).setSource t {}).go t .exited)
        (Function.update_self _ _ _) (Function.update_self _ _ _) lost
      have counted := kept.counted.lose owner mine moved.owner_of_ne
      by_cases last : s.heap.useCount blk = 1
      · refine ⟨_, kept.leaves idle free [blk] rfl rfl counted
          (List.nodup_singleton blk) (fun b member => ?_) fun b => ?_⟩
        · rw [List.mem_singleton.mp member, last]
          decide
        · change Function.update s.heap.useCount blk (s.heap.useCount blk + -1) b = 0 ↔ _
          by_cases same : b = blk
          · simp [same, last]
          · simp [same]
      · refine ⟨_, kept.leaves idle free [] rfl rfl counted List.nodup_nil nofun
          fun b => ?_⟩
        have still : s.heap.useCount blk + -1 ≠ 0 := by omega
        have usedNow : s.heap.useCount blk ≠ 0 := ne_of_gt used
        exact (update_eq_zero usedNow still b).trans (by simp)
  | exit free owned =>
      have before : (s.withHeir lost).heap.owner (some t) = none :=
        (LocalSource.owner_eq (s := heirHeap s.heap lost) (t := some t) free rfl).trans owned
      have mine := owner_exited ((s.heap.setSource t {}).go t .exited)
        (Function.update_self _ _ _) (Function.update_self _ _ _) lost
      have counted := kept.counted.congr (moved.owner_same (mine.trans before.symm)) fun _ => rfl
      exact ⟨_, kept.leaves idle free [] rfl rfl counted List.nodup_nil nofun
        fun b => by simp [LocalSource.State.go, LocalSource.State.setSource]⟩

end Pool

end NgrCore.MemoryResource
