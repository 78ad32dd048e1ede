import NgrCore.RemoteSource.Pointers

/-!
Owns where the blocks of `__remote_source` are: whatever the counters and the ring index
say, each block is in exactly one place at every moment, and a popped list is a
null-terminated chain of blocks that nobody else has.
-/

namespace NgrCore.RemoteSource.Pointers

open NgrCore.Library NgrCore.IntrusiveQueue

/-- What a call relies on. Within `__create_reversed`, the blocks done are linked backwards
and those to do are still linked forwards. -/
def CallOk (next : Links Addr) : Call → Prop
  | .push blk (.link _ _ old) => next blk = old
  | .tryPop (.reverse _ list newHead newTail taken) => ∃ done todo, taken = done ++ todo ∧
      Chain next list todo ∧ Chain next newHead done.reverse ∧ newTail = taken.head?
  | .tryPop (.reset _ result taken) => Represents next result taken.reverse
  | .returned result blocks => Represents next result blocks
  | _ => True

/-- A call does not see a write to a block that it does not have. -/
theorem CallOk.congr {next other : Links Addr} {call : Call} (ok : CallOk next call)
    (agree : ∀ blk ∈ call.blocks, other blk = next blk) : CallOk other call := by
  cases call with
  | idle => trivial
  | push blk pc =>
      cases pc with
      | link e n old => exact (agree blk (List.mem_singleton_self blk)).trans ok
      | load | read | reserve | front | store | publish => trivial
  | tryPop pc =>
      cases pc with
      | reverse e list newHead newTail taken =>
          obtain ⟨done, todo, rfl, forward, backward, tail⟩ := ok
          refine ⟨done, todo, rfl, forward.congr fun blk member => ?_,
            backward.congr fun blk member => ?_, tail⟩
          · exact agree blk (List.mem_append_right _ member)
          · exact agree blk (List.mem_append_left _ (List.mem_reverse.mp member))
      | reset e result taken =>
          exact Represents.congr ok fun blk member => agree blk (List.mem_reverse.mp member)
      | load | advance | take | detach => trivial
  | returned result blocks => exact Represents.congr ok agree

structure Inv {Thread : Type} (pool : Addr → Prop) (s : State Thread) : Prop where
  placed : Placed pool s.blocks
  chains : ∀ e, Chain s.next (s.ring e).head (s.linked e)
  calls : ∀ t, CallOk s.next (s.call t)

section Places

variable {Thread : Type} {pool : Addr → Prop} {s after : State Thread} {t : Thread}

/-- A block of a call is in no entry and in no other call. -/
theorem Inv.of_call (inv : Inv pool s) {blk : Addr} (mine : blk ∈ (s.call t).blocks) :
    (∀ e, blk ∉ s.linked e) ∧ ∀ u, u ≠ t → blk ∉ (s.call u).blocks := by
  constructor
  · intro e there
    cases inv.placed.apart (.call t) (.entry e) blk mine there
  · intro u apart there
    cases inv.placed.apart (.call t) (.call u) blk mine there
    exact apart rfl

theorem Inv.of_held (inv : Inv pool s) {blk : Addr} (mine : blk ∈ s.held t) :
    (∀ e, blk ∉ s.linked e) ∧ ∀ u, blk ∉ (s.call u).blocks := by
  constructor
  · intro e there
    cases inv.placed.apart (.held t) (.entry e) blk mine there
  · intro u there
    cases inv.placed.apart (.held t) (.call u) blk mine there

theorem setN_head (e f : Nat) (n : BitVec 64) : ((s.setN e n).ring f).head = (s.ring f).head := by
  change (Function.update s.ring e { s.ring e with n } f).head = (s.ring f).head
  rw [Function.update_apply]
  split
  next same => rw [same]
  next => rfl

theorem Inv.setN (inv : Inv pool s) (e : Nat) (n : BitVec 64) : Inv pool (s.setN e n) where
  placed := inv.placed
  chains f := by
    rw [setN_head]
    exact inv.chains f
  calls := inv.calls

variable [DecidableEq Thread] {call : Call}

theorem Inv.calls_after (inv : Inv pool s) (calls : after.call = Function.update s.call t call)
    (ok : CallOk after.next call)
    (agree : ∀ u, u ≠ t → ∀ blk ∈ (s.call u).blocks, after.next blk = s.next blk) (u : Thread) :
    CallOk after.next (after.call u) := by
  rw [calls]
  by_cases mine : u = t
  · rw [mine, Function.update_self]
    exact ok
  · rw [Function.update_of_ne mine]
    exact (inv.calls u).congr (agree u mine)

/-- A step that leaves the places alone, with a write to a block of the call at most. -/
theorem Inv.stay (inv : Inv pool s) (calls : after.call = Function.update s.call t call)
    (held : after.held = s.held) (linked : after.linked = s.linked)
    (heads : ∀ e, (after.ring e).head = (s.ring e).head)
    (agree : ∀ blk, blk ∉ (s.call t).blocks → after.next blk = s.next blk)
    (blocks : call.blocks.Perm (s.call t).blocks) (ok : CallOk after.next call) :
    Inv pool after := by
  refine ⟨inv.placed.congr ?_, ?_, inv.calls_after calls ok ?_⟩
  · intro place
    cases place with
    | held u =>
        change (after.held u).Perm (s.held u)
        rw [held]
    | entry e =>
        change (after.linked e).Perm (s.linked e)
        rw [linked]
    | call u =>
        change (after.call u).blocks.Perm (s.call u).blocks
        rw [calls]
        by_cases mine : u = t
        · rw [mine, Function.update_self]
          exact blocks
        · rw [Function.update_of_ne mine]
  · intro e
    rw [heads, linked]
    exact (inv.chains e).congr fun blk member =>
      agree blk fun mine => (inv.of_call mine).1 e member
  · intro u apart blk member
    exact agree blk fun mine => (inv.of_call mine).2 u apart member

/-- The call of a thread moves on with the same blocks. -/
theorem Inv.go (inv : Inv pool s) (blocks : call.blocks.Perm (s.call t).blocks)
    (ok : CallOk s.next call) : Inv pool (s.go t call) :=
  inv.stay rfl rfl rfl (fun _ => rfl) (fun _ _ => rfl) blocks ok

end Places

section Pushes

variable {Thread : Type} {pool : Addr → Prop} [DecidableEq Thread] {s after : State Thread}
    {t : Thread}

theorem Inv.link (inv : Inv pool s) {blk : Addr} {e : Nat} {n : BitVec 64} {old : Option Addr}
    (call : s.call t = .push blk (.link e n old)) (expected : (s.ring e).head = old) :
    Inv pool { (s.setHead e (some blk)).go t
        (if n + 1 = BitVec.ofNat 64 T then .push blk .publish else .idle) with
      linked := Function.update s.linked e (blk :: s.linked e) } := by
  have ok := inv.calls t
  rw [call] at ok
  have nothing : (if n + 1 = BitVec.ofNat 64 T then Call.push blk .publish else .idle).blocks =
      [] := by
    split <;> rfl
  refine ⟨inv.placed.transfer (.call t) (.entry e) nofun ?_ ?_, ?_, ?_⟩
  · intro place notCall notEntry
    cases place with
    | held u => rfl
    | call u =>
        refine congrArg Call.blocks (Function.update_of_ne ?_ _ _)
        rintro rfl
        exact notCall rfl
    | entry f =>
        refine Function.update_of_ne ?_ _ _
        rintro rfl
        exact notEntry rfl
  · change ((Function.update s.call t _ t).blocks ++ Function.update s.linked e _ e).Perm
      ((s.call t).blocks ++ s.linked e)
    rw [Function.update_self, Function.update_self, nothing, call]
    exact .refl _
  · intro f
    change Chain s.next (Function.update s.ring e { s.ring e with head := some blk } f).head
      (Function.update s.linked e (blk :: s.linked e) f)
    by_cases same : f = e
    · rw [same, Function.update_self, Function.update_self]
      refine ⟨rfl, ?_⟩
      rw [show s.next blk = old from ok, ← expected]
      exact inv.chains e
    · rw [Function.update_of_ne same, Function.update_of_ne same]
      exact inv.chains f
  · refine inv.calls_after rfl ?_ fun _ _ _ _ => rfl
    split <;> trivial

theorem PushStep.inv (inv : Inv pool s) {blk : Addr} {pc : Push} (call : s.call t = .push blk pc)
    (step : PushStep s t blk pc after) : Inv pool after := by
  cases step with
  | load | full | read | retry | front | relink =>
      refine inv.go ?_ trivial
      rw [call]
      exact .refl _
  | reserve expected =>
      refine (inv.setN _ _).go ?_ trivial
      change List.Perm _ (s.call t).blocks
      rw [call]
      exact .refl _
  | store =>
      refine inv.stay rfl rfl rfl (fun _ => rfl) ?_ ?_ (Function.update_self _ _ _)
      · intro other outside
        refine Function.update_of_ne ?_ _ _
        rintro rfl
        rw [call] at outside
        exact outside (List.mem_singleton_self _)
      · rw [call]
        exact .refl _
  | link expected => exact inv.link call expected
  | publish =>
      refine inv.stay rfl rfl rfl (fun _ => rfl) (fun _ _ => rfl) ?_ trivial
      rw [call]
      exact .refl _

end Pushes

section Pops

variable {Thread : Type} {pool : Addr → Prop} [DecidableEq Thread] {s after : State Thread}
    {t : Thread}

theorem Inv.detach (inv : Inv pool s) {e : Nat} {old : Option Addr}
    (call : s.call t = .tryPop (.detach e old)) (expected : (s.ring e).head = old) :
    Inv pool { (s.setHead e none).go t (.tryPop (.reverse e old none old (s.linked e))) with
      linked := Function.update s.linked e [] } := by
  have chain : Chain s.next old (s.linked e) := expected ▸ inv.chains e
  refine ⟨inv.placed.transfer (.entry e) (.call t) nofun ?_ ?_, ?_, ?_⟩
  · intro place notEntry notCall
    cases place with
    | held u => rfl
    | call u =>
        refine congrArg Call.blocks (Function.update_of_ne ?_ _ _)
        rintro rfl
        exact notCall rfl
    | entry f =>
        refine Function.update_of_ne ?_ _ _
        rintro rfl
        exact notEntry rfl
  · change (Function.update s.linked e _ e ++ (Function.update s.call t _ t).blocks).Perm
      (s.linked e ++ (s.call t).blocks)
    rw [Function.update_self, Function.update_self, call]
    exact .of_eq (List.append_nil _).symm
  · intro f
    change Chain s.next (Function.update s.ring e { s.ring e with head := none } f).head
      (Function.update s.linked e [] f)
    by_cases same : f = e
    · rw [same, Function.update_self, Function.update_self]
      rfl
    · rw [Function.update_of_ne same, Function.update_of_ne same]
      exact inv.chains f
  · refine inv.calls_after rfl ?_ fun _ _ _ _ => rfl
    exact ⟨[], s.linked e, rfl, chain, rfl, chain.head_eq⟩

theorem Inv.reverse (inv : Inv pool s) {e : Nat} {item : Addr} {newHead newTail : Option Addr}
    {taken : List Addr} (call : s.call t = .tryPop (.reverse e (some item) newHead newTail taken)) :
    Inv pool ((s.setNext item newHead).go t
      (.tryPop (.reverse e (s.next item) (some item) newTail taken))) := by
  have ok := inv.calls t
  have nodup := inv.placed.nodup (.call t)
  change (s.call t).blocks.Nodup at nodup
  rw [call] at ok nodup
  obtain ⟨done, todo, rfl, forward, backward, tail⟩ := ok
  cases todo with
  | nil => cases forward
  | cons first rest =>
      obtain ⟨here, forward⟩ := forward
      cases here
      have apart := List.nodup_append.mp nodup
      have fresh : item ∉ rest := (List.nodup_cons.mp apart.2.1).1
      have outside : item ∉ done.reverse := fun member =>
        apart.2.2 item (List.mem_reverse.mp member) item List.mem_cons_self rfl
      refine inv.stay rfl rfl rfl (fun _ => rfl) ?_ (by rw [call]; exact .refl _) ?_
      · intro blk missing
        refine Function.update_of_ne ?_ _ _
        rintro rfl
        rw [call] at missing
        exact missing (List.mem_append_right _ List.mem_cons_self)
      · refine ⟨done ++ [item], rest, List.append_cons .., forward.update newHead fresh, ?_, tail⟩
        rw [List.reverse_append]
        refine ⟨rfl, ?_⟩
        change Chain _ (Function.update s.next item newHead item) done.reverse
        rw [Function.update_self]
        exact backward.update newHead outside

theorem Inv.reversed (inv : Inv pool s) {e : Nat} {newHead newTail : Option Addr}
    {taken : List Addr}
    (call : s.call t = .tryPop (.reverse e none newHead newTail taken)) :
    Inv pool (s.go t (.tryPop (.reset e ⟨newHead, newTail⟩ taken))) := by
  have ok := inv.calls t
  rw [call] at ok
  obtain ⟨done, todo, rfl, forward, backward, tail⟩ := ok
  refine inv.go (by rw [call]; exact .refl _) ?_
  cases forward.of_none
  rw [List.append_nil] at tail ⊢
  exact ⟨backward, tail.trans List.getLast?_reverse.symm⟩

theorem PopStep.inv (inv : Inv pool s) {pc : Pop} (call : s.call t = .tryPop pc)
    (step : PopStep s t pc after) : Inv pool after := by
  cases step with
  | load | retry | take | retake =>
      refine inv.go ?_ trivial
      rw [call]
      exact .refl _
  | empty =>
      refine inv.go ?_ represents_empty
      rw [call]
      exact .refl _
  | advance =>
      refine inv.stay rfl rfl rfl (fun _ => rfl) (fun _ _ => rfl) ?_ trivial
      rw [call]
      exact .refl _
  | detach expected => exact inv.detach call expected
  | reverse => exact inv.reverse call
  | reversed => exact inv.reversed call
  | @reset e result taken =>
      have ok := inv.calls t
      rw [call] at ok
      refine (inv.setN e 0).go ?_ ok
      change List.Perm _ (s.call t).blocks
      rw [call]
      exact List.reverse_perm taken

end Pops

section Runs

variable {Thread : Type} {pool : Addr → Prop} [DecidableEq Thread] {s after : State Thread}
    {t : Thread}

theorem Inv.pass (inv : Inv pool s) {call : Call} {held : List Addr} (ok : CallOk s.next call)
    (moved : (held ++ call.blocks).Perm (s.held t ++ (s.call t).blocks)) :
    Inv pool { s.go t call with held := Function.update s.held t held } := by
  refine ⟨inv.placed.transfer (.held t) (.call t) nofun ?_ ?_, inv.chains,
    inv.calls_after rfl ok fun _ _ _ _ => rfl⟩
  · intro place notHeld notCall
    cases place with
    | held u =>
        refine Function.update_of_ne ?_ _ _
        rintro rfl
        exact notHeld rfl
    | call u =>
        refine congrArg Call.blocks (Function.update_of_ne ?_ _ _)
        rintro rfl
        exact notCall rfl
    | entry e => rfl
  · change (Function.update s.held t held t ++ (Function.update s.call t call t).blocks).Perm _
    rw [Function.update_self, Function.update_self]
    exact moved

theorem Step.inv (inv : Inv pool s) (step : Step s t after) : Inv pool after := by
  cases step with
  | beginPush idle holds =>
      refine inv.pass trivial ?_
      rw [idle]
      change (_ ++ [_]).Perm (_ ++ [])
      rw [List.append_nil]
      exact List.perm_append_comm.trans (List.perm_cons_erase holds).symm
  | beginTryPop idle =>
      refine inv.go ?_ trivial
      rw [idle]
      exact .refl _
  | push call step => exact step.inv inv call
  | tryPop call step => exact step.inv inv call
  | leave returned =>
      refine inv.pass trivial ?_
      rw [returned]
      change (_ ++ _ ++ []).Perm _
      rw [List.append_nil]
      exact List.perm_append_comm
  | @write blk value idle holds =>
      obtain ⟨notLinked, notCalled⟩ := inv.of_held holds
      refine ⟨inv.placed, fun e => (inv.chains e).update value (notLinked e), fun u => ?_⟩
      refine (inv.calls u).congr fun other member => Function.update_of_ne ?_ _ _
      rintro rfl
      exact notCalled u member

theorem inv_of_reachable (reachable : (system Thread pool).Reachable s) : Inv pool s := by
  refine reachable.invariant _ ?_ ?_
  · intro start initial
    refine ⟨initial.placed, initial.chains, fun t => ?_⟩
    rw [initial.idle t]
    trivial
  · intro s t after _ inv step
    exact step.inv inv

/-- What holds at every moment. A block that a thread holds or that is in transit in its call
is in one place, and an entry links what its head pointer leads to. -/
structure Placement (pool : Addr → Prop) (s : State Thread) : Prop where
  place : ∀ blk, pool blk → ∃! place, blk ∈ s.blocks place
  once : ∀ place, (s.blocks place).Nodup
  known : ∀ place, ∀ blk ∈ s.blocks place, pool blk
  entries : ∀ e, Chain s.next (s.ring e).head (s.linked e)
  popped : ∀ t result blocks, s.call t = .returned result blocks →
    Represents s.next result blocks ∧
      ∀ blk ∈ blocks, ∀ place, blk ∈ s.blocks place → place = .call t

theorem placement (reachable : (system Thread pool).Reachable s) : Placement pool s := by
  have inv := inv_of_reachable reachable
  refine ⟨fun blk => inv.placed.existsUnique, inv.placed.nodup,
    fun place blk member => (inv.placed.pool blk).mp ⟨place, member⟩, inv.chains, ?_⟩
  intro t result blocks returned
  have ok := inv.calls t
  rw [returned] at ok
  refine ⟨ok, fun blk member place there => ?_⟩
  refine inv.placed.apart place (.call t) blk there ?_
  change blk ∈ (s.call t).blocks
  rw [returned]
  exact member

end Runs

/-- One available entry with two blocks. -/
def twoLinked : State Bool where
  next := Function.update (fun _ => none) 1 (some 2)
  ring := Function.update (fun _ => {}) 0 { head := some 1, n := 16 }
  state := 1
  held _ := []
  call _ := .idle
  linked := Function.update (fun _ => []) 0 [1, 2]

theorem twoLinked_distributed : Distributed (fun blk => blk = 1 ∨ blk = 2) twoLinked := by
  have blocks (place : Place Bool) :
      twoLinked.blocks place = if place = .entry 0 then [1, 2] else [] := by
    cases place with
    | held t => rfl
    | call t => rfl
    | entry e =>
        change Function.update (fun _ => []) 0 [1, 2] e = _
        rw [Function.update_apply]
        simp
  refine ⟨fun _ => rfl, ⟨fun place => ?_, fun first second blk here there => ?_, fun blk => ?_⟩,
    fun e => ?_⟩
  · rw [blocks]
    split <;> simp
  · rw [blocks] at here there
    split at here
    · split at there
      · simp_all
      · cases there
    · cases here
  · constructor
    · rintro ⟨place, member⟩
      rw [blocks] at member
      split at member
      · simpa using member
      · cases member
    · intro known
      exact ⟨.entry 0, by simpa [blocks] using known⟩
  · by_cases same : e = 0
    · rw [same]
      exact ⟨rfl, rfl, rfl⟩
    · have noBlocks : twoLinked.linked e = [] := by simp [twoLinked, same]
      have noHead : (twoLinked.ring e).head = none := by simp [twoLinked, same]
      rw [noBlocks, noHead]
      rfl

/-- The two blocks are popped. -/
theorem placement_pop : ∃ s : State Bool, s.call false = .returned ⟨some 2, some 1⟩ [2, 1] ∧
    Placement (fun blk => blk = 1 ∨ blk = 2) s := by
  have start : (system Bool fun blk => blk = 1 ∨ blk = 2).Reachable twoLinked :=
    .init twoLinked_distributed
  have called := start.step (.beginTryPop (t := false) rfl)
  have loaded := called.step (.tryPop (t := false) rfl .load)
  have advanced := loaded.step (.tryPop (t := false) rfl (.advance (by decide) rfl))
  have found := advanced.step (.tryPop (t := false) rfl .take)
  have detached := found.step (.tryPop (t := false) rfl (.detach rfl))
  have first := detached.step (.tryPop (t := false) rfl .reverse)
  have second := first.step (.tryPop (t := false) rfl .reverse)
  have reversed := second.step (.tryPop (t := false) rfl .reversed)
  have popped := reversed.step (.tryPop (t := false) rfl .reset)
  exact ⟨_, rfl, placement popped⟩

end NgrCore.RemoteSource.Pointers
