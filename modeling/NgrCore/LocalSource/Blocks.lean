import NgrCore.Library.RefCount
import NgrCore.LocalSource

/-!
Owns what the blocks of the local sources are doing: the use count of a block counts its
live subranges and the thread that consumes it, and the blocks in the lists of the threads,
or on their way back to the remote source, have no use.

The remote source may hand out any blocks that nobody uses and that are in no list.
-/

namespace NgrCore.LocalSource

open NgrCore.Library

section Definitions

/-- The block that a thread holds a use of as its `__consume_`. Inside `_M_allocate` it has
given up the old one and has no new one yet. -/
def Pc.owner (pc : Pc) (source : Source) : Option Addr :=
  match pc with
  | .giving _ (some _) | .popping _ | .consume _ => none
  | _ => source.consume

/-- The blocks that a thread has for later, or is giving to the remote source. -/
def Pc.free (pc : Pc) (source : Source) : List Addr :=
  match pc with
  | .giving blk _ => blk :: source.queue
  | _ => source.queue

variable {Thread : Type}

def State.owner (s : State Thread) (t : Thread) : Option Addr := (s.pc t).owner (s.source t)

def State.free (s : State Thread) (t : Thread) : List Addr := (s.pc t).free (s.source t)

def State.liveOf (s : State Thread) (blk : Addr) : Nat :=
  s.live.countP fun x => x.source = blk

/-- Blocks that nobody uses and that are in no list. -/
def State.Unheld (s : State Thread) (batch : List Addr) : Prop :=
  batch.Nodup ∧ ∀ blk ∈ batch, s.useCount blk = 0 ∧ ∀ t, blk ∉ s.free t

/-- Any number of threads over a remote source that hands out unheld blocks. -/
def system (Thread : Type) [DecidableEq Thread] : System (State Thread) (Thread × Action) where
  Init s := s = {}
  Step s label after :=
    Move s label.1 label.2 after ∧ ∀ batch, label.2 = .refill batch → s.Unheld batch

/-- The blocks of a state. -/
structure BlocksInv (s : State Thread) : Prop where
  counted : Counted s.useCount s.liveOf s.owner
  lists : FreeLists s.useCount s.free
  entries : ∀ blk, s.entries blk = 0 ∨ s.entries blk = 1 ∧ s.useCount blk = 0

end Definitions

section Threads

variable {source : Source} {n : Nat}

theorem owner_proceed : (source.proceed n).owner source = none := by
  unfold Source.proceed
  split <;> rfl

theorem free_proceed : (source.proceed n).free source = source.queue := by
  unfold Source.proceed
  split <;> rfl

theorem proceed_ne_exited : source.proceed n ≠ .exited := by
  unfold Source.proceed
  split
  · nofun
  · nofun

theorem resume_ne_exited {resume : Option Nat} : source.resume resume ≠ .exited := by
  cases resume with
  | none => nofun
  | some n => exact proceed_ne_exited

theorem enter_ne_exited : source.enter n ≠ .exited := by
  unfold Source.enter
  split
  · nofun
  · split
    · exact proceed_ne_exited
    · nofun

theorem owner_enter : (source.enter n).owner source = source.consume := by
  unfold Source.enter
  split
  · rfl
  · split
    next empty => rw [owner_proceed, empty]
    next => rfl

theorem free_enter : (source.enter n).free source = source.queue := by
  unfold Source.enter
  split
  · rfl
  · split
    · exact free_proceed
    · rfl

theorem free_resume (resume : Option Nat) : (source.resume resume).free source = source.queue := by
  cases resume with
  | none => rfl
  | some n => exact free_proceed

end Threads

section Recycle

variable {Thread : Type} {s after : State Thread} {t : Thread} {blk : Addr}

/-- What `_M_release` does, wherever it puts the block. -/
structure Recycled (s after : State Thread) (t : Thread) (blk : Addr) (resume : Option Nat) :
    Prop where
  useCount : after.useCount = s.useCount
  live : after.live = s.live
  history : after.history = s.history
  entries : after.entries = Function.update s.entries blk (s.entries blk + 1)
  pc : after.pc t = .giving blk resume ∨ after.pc t = (after.source t).resume resume
  free : after.free t = blk :: (s.source t).queue
  consume : (after.source t).consume = (s.source t).consume
  bump : (after.source t).bump = (s.source t).bump
  others : ∀ u, u ≠ t → after.pc u = s.pc u ∧ after.source u = s.source u

theorem owner_eq {pc : Pc} {source : Source} (here : s.pc t = pc) (mine : s.source t = source) :
    s.owner t = pc.owner source := by
  unfold State.owner
  rw [here, mine]

theorem free_eq {pc : Pc} {source : Source} (here : s.pc t = pc) (mine : s.source t = source) :
    s.free t = pc.free source := by
  unfold State.free
  rw [here, mine]

theorem Recycled.not_exited {resume : Option Nat} (recycled : Recycled s after t blk resume) :
    after.pc t ≠ .exited := by
  rcases recycled.pc with pc | pc
  · rw [pc]
    nofun
  · rw [pc]
    exact resume_ne_exited

theorem Recycled.owner_none (recycled : Recycled s after t blk none) :
    after.owner t = (s.source t).consume := by
  rw [← recycled.consume]
  rcases recycled.pc with pc | pc
  · simp [State.owner, Pc.owner, pc]
  · simp [State.owner, Pc.owner, pc, Source.resume]

theorem Recycled.owner_some {n : Nat} (recycled : Recycled s after t blk (some n)) :
    after.owner t = none := by
  rcases recycled.pc with pc | pc
  · simp [State.owner, Pc.owner, pc]
  · simp only [State.owner, pc]
    exact owner_proceed

variable [DecidableEq Thread]

theorem recycled (s : State Thread) (t : Thread) (blk : Addr) (resume : Option Nat) :
    Recycled s (s.recycle t blk resume) t blk resume := by
  unfold State.recycle
  dsimp only
  split
  next =>
    refine ⟨rfl, rfl, rfl, rfl, .inr ?_, ?_, ?_, ?_, fun u apart => ⟨?_, ?_⟩⟩
    · simp [State.go, State.setSource]
    · simp [State.free, State.go, State.setSource, free_resume]
    · simp [State.go, State.setSource]
    · simp [State.go, State.setSource]
    · exact Function.update_of_ne apart _ _
    · exact Function.update_of_ne apart _ _
  next =>
    refine ⟨rfl, rfl, rfl, rfl, .inl ?_, ?_, rfl, rfl, fun u apart => ⟨?_, rfl⟩⟩
    · exact Function.update_self _ _ _
    · simp [State.free, State.go, Pc.free]
    · exact Function.update_of_ne apart _ _

theorem Move.others {action : Action} (move : Move s t action after) (u : Thread) (apart : u ≠ t) :
    after.pc u = s.pc u ∧ after.source u = s.source u := by
  cases move with
  | acquire | drop | give =>
      exact ⟨Function.update_of_ne apart _ _, rfl⟩
  | refill | consume | take | exitOwner | exit =>
      exact ⟨Function.update_of_ne apart _ _, Function.update_of_ne apart _ _⟩
  | dropLast | releaseLast => exact (recycled _ t _ _).others u apart
  | release => exact ⟨rfl, rfl⟩

theorem Move.owner_of_ne {action : Action} (move : Move s t action after) (u : Thread)
    (apart : u ≠ t) : after.owner u = s.owner u := by
  unfold State.owner
  rw [(move.others u apart).1, (move.others u apart).2]

theorem Move.free_of_ne {action : Action} (move : Move s t action after) (u : Thread)
    (apart : u ≠ t) : after.free u = s.free u := by
  unfold State.free
  rw [(move.others u apart).1, (move.others u apart).2]

end Recycle

section Live

variable {Thread : Type} {s after : State Thread}

theorem liveOf_congr (live : after.live = s.live) : after.liveOf = s.liveOf := by
  funext blk
  unfold State.liveOf
  rw [live]

theorem liveOf_cons {x : Subrange} (live : after.live = x :: s.live) (blk : Addr) :
    after.liveOf blk = s.liveOf blk + if x.source = blk then 1 else 0 := by
  unfold State.liveOf
  rw [live, List.countP_cons]
  simp

theorem liveOf_erase {x : Subrange} (held : x ∈ s.live) (live : after.live = s.live.erase x)
    (blk : Addr) : s.liveOf blk = after.liveOf blk + if x.source = blk then 1 else 0 := by
  unfold State.liveOf
  rw [(List.perm_cons_erase held).countP_eq, live, List.countP_cons]
  simp

theorem liveOf_pos {x : Subrange} (held : x ∈ s.live) : 0 < s.liveOf x.source :=
  List.countP_pos_iff.mpr ⟨x, held, by simp⟩

theorem counted_take {x : Subrange} (counted : Counted s.useCount s.liveOf s.owner)
    (live : after.live = x :: s.live) (owner : ∀ u, after.owner u = s.owner u) :
    Counted (Function.update s.useCount x.source (s.useCount x.source + 1)) after.liveOf
      after.owner := by
  refine counted.congr owner fun b => ?_
  have refs := liveOf_cons live b
  by_cases same : x.source = b
  · rw [if_pos same] at refs
    rw [← same] at refs ⊢
    rw [Function.update_self]
    omega
  · rw [if_neg same] at refs
    rw [Function.update_of_ne (Ne.symm same)]
    omega

theorem counted_release {x : Subrange} (counted : Counted s.useCount s.liveOf s.owner)
    (held : x ∈ s.live) (live : after.live = s.live.erase x)
    (owner : ∀ u, after.owner u = s.owner u) :
    Counted (Function.update s.useCount x.source (s.useCount x.source + -1)) after.liveOf
      after.owner := by
  refine counted.congr owner fun b => ?_
  have refs := liveOf_erase held live b
  by_cases same : x.source = b
  · rw [if_pos same] at refs
    rw [← same] at refs ⊢
    rw [Function.update_self]
    omega
  · rw [if_neg same] at refs
    rw [Function.update_of_ne (Ne.symm same)]
    omega

end Live

section Preservation

variable {Thread : Type} {s after : State Thread} {t : Thread} {blk : Addr}

theorem BlocksInv.use_pos (inv : BlocksInv s) (owned : s.owner t = some blk) :
    0 < s.useCount blk := by
  have counts := inv.counted.owned t blk owned
  omega

theorem BlocksInv.use_pos_of_live (inv : BlocksInv s) {x : Subrange} (held : x ∈ s.live) :
    0 < s.useCount x.source := by
  have counts := inv.counted.refs_le x.source
  have some := liveOf_pos held
  omega

/-- Nobody uses a block whose count is zero. -/
theorem BlocksInv.nobody (inv : BlocksInv s) (unused : s.useCount blk = 0) :
    s.liveOf blk = 0 ∧ ∀ t, s.owner t ≠ some blk := by
  have refs := inv.counted.refs_le blk
  refine ⟨by omega, fun t owned => ?_⟩
  have used := inv.use_pos owned
  omega

/-- A block in use has not entered a free list since it was consumed. -/
theorem BlocksInv.entries_zero (inv : BlocksInv s) (used : 0 < s.useCount blk) :
    s.entries blk = 0 := by
  rcases inv.entries blk with zero | ⟨_, unused⟩
  · exact zero
  · omega

theorem BlocksInv.entries_update (inv : BlocksInv s) (used : 0 < s.useCount blk) (count : Int)
    (b : Addr) : s.entries b = 0 ∨
      s.entries b = 1 ∧ Function.update s.useCount blk count b = 0 := by
  by_cases same : b = blk
  · rw [same]
    exact .inl (inv.entries_zero used)
  · rw [Function.update_of_ne same]
    exact inv.entries b

theorem unused_update (used : 0 < s.useCount blk) (count : Int) (b : Addr)
    (unused : s.useCount b = 0) : Function.update s.useCount blk count b = 0 := by
  have different : b ≠ blk := by
    rintro rfl
    omega
  rw [Function.update_of_ne different]
  exact unused

theorem BlocksInv.frame (inv : BlocksInv s) (useCount : after.useCount = s.useCount)
    (live : after.live = s.live) (entries : after.entries = s.entries)
    (owner : ∀ u, after.owner u = s.owner u) (free : ∀ u, (after.free u).Sublist (s.free u)) :
    BlocksInv after := by
  have lists := inv.lists.shrink free fun _ => id
  have counted := inv.counted.congr owner fun _ => rfl
  refine ⟨?_, ?_, fun b => ?_⟩
  · rw [useCount, liveOf_congr live]
    exact counted
  · rw [useCount]
    exact lists
  · rw [useCount, entries]
    exact inv.entries b

/-- A thread gives its block up, and others still use it or it is lost. -/
theorem BlocksInv.lose (inv : BlocksInv s) (owned : s.owner t = some blk)
    (useCount : after.useCount = Function.update s.useCount blk (s.useCount blk + -1))
    (live : after.live = s.live) (entries : after.entries = s.entries)
    (mine : after.owner t = none) (others : ∀ u, u ≠ t → after.owner u = s.owner u)
    (free : ∀ u, (after.free u).Sublist (s.free u)) : BlocksInv after := by
  have used := inv.use_pos owned
  have counted := inv.counted.lose owned mine others
  have lists := inv.lists.shrink free (unused_update used (s.useCount blk + -1))
  refine ⟨?_, ?_, fun b => ?_⟩
  · rw [useCount, liveOf_congr live]
    exact counted
  · rw [useCount]
    exact lists
  · rw [useCount, entries]
    exact inv.entries_update used _ b

theorem BlocksInv.recycle (inv : BlocksInv s) (last : s.useCount blk = 1)
    (useCount : after.useCount = Function.update s.useCount blk (s.useCount blk + -1))
    (entries : after.entries = Function.update s.entries blk (s.entries blk + 1))
    (counted : Counted (Function.update s.useCount blk (s.useCount blk + -1)) after.liveOf
      after.owner)
    (mine : after.free t = blk :: s.free t) (others : ∀ u, u ≠ t → after.free u = s.free u) :
    BlocksInv after := by
  have lists := inv.lists.put last mine others
  refine ⟨?_, ?_, fun b => ?_⟩
  · rw [useCount]
    exact counted
  · rw [useCount]
    exact lists
  · rw [useCount, entries]
    by_cases same : b = blk
    · rw [same, Function.update_self, Function.update_self, inv.entries_zero (by omega)]
      exact .inr ⟨rfl, by omega⟩
    · rw [Function.update_of_ne same, Function.update_of_ne same]
      exact inv.entries b

variable [DecidableEq Thread] {n : Nat} {action : Action}

theorem Move.free_sublist (move : Move s t action after) (mine : (after.free t).Sublist (s.free t))
    (u : Thread) : (after.free u).Sublist (s.free u) := by
  by_cases own : u = t
  · exact own ▸ mine
  · rw [move.free_of_ne u own]

theorem Move.owner_same (move : Move s t action after) (mine : after.owner t = s.owner t)
    (u : Thread) : after.owner u = s.owner u := by
  by_cases own : u = t
  · exact own ▸ mine
  · exact move.owner_of_ne u own

theorem BlocksInv.take (inv : BlocksInv s) (move : Move s t .quiet after)
    (owned : s.owner t = some blk) (mine : after.owner t = some blk)
    (free : after.free t = s.free t)
    {x : Subrange} (source : x.source = blk) (live : after.live = x :: s.live)
    (useCount : after.useCount = Function.update s.useCount blk (s.useCount blk + 1))
    (entries : after.entries = s.entries) : BlocksInv after := by
  have used := inv.use_pos owned
  have owner := move.owner_same (mine.trans owned.symm)
  have lists := inv.lists.shrink (move.free_sublist (free ▸ .refl _))
    (unused_update used (s.useCount blk + 1))
  refine ⟨?_, ?_, fun b => ?_⟩
  · rw [useCount, ← source]
    exact counted_take inv.counted live owner
  · rw [useCount]
    exact lists
  · rw [useCount, entries]
    exact inv.entries_update used _ b

theorem BlocksInv.consume (inv : BlocksInv s) (move : Move s t .quiet after)
    (owned : s.owner t = none) (mine : after.owner t = some blk)
    (free : s.free t = blk :: after.free t) (live : after.live = s.live)
    (useCount : after.useCount = Function.update s.useCount blk (s.useCount blk + 1))
    (entries : after.entries = Function.update s.entries blk 0) : BlocksInv after := by
  have unused : s.useCount blk = 0 := inv.lists.unused t blk (free ▸ List.mem_cons_self)
  have counted := inv.counted.gain unused owned mine move.owner_of_ne
  have lists := inv.lists.take free move.free_of_ne
  refine ⟨?_, ?_, fun b => ?_⟩
  · rw [useCount, liveOf_congr live]
    exact counted
  · rw [useCount]
    exact lists
  · rw [useCount, entries]
    by_cases same : b = blk
    · rw [same, Function.update_self]
      exact .inl rfl
    · rw [Function.update_of_ne same, Function.update_of_ne same]
      exact inv.entries b

theorem BlocksInv.refill (inv : BlocksInv s) (move : Move s t action after) {batch : List Addr}
    (unheld : s.Unheld batch) (owner : after.owner t = s.owner t)
    (free : after.free t = batch ++ s.free t) (useCount : after.useCount = s.useCount)
    (live : after.live = s.live) (entries : after.entries = s.entries) : BlocksInv after := by
  have counted := inv.counted.congr (move.owner_same owner) fun _ => rfl
  have lists := inv.lists.fill unheld.1 (fun b member => (unheld.2 b member).2)
    (fun b member => (unheld.2 b member).1) (fun _ => id) free move.free_of_ne
  refine ⟨?_, ?_, fun b => ?_⟩
  · rw [useCount, liveOf_congr live]
    exact counted
  · rw [useCount]
    exact lists
  · rw [useCount, entries]
    exact inv.entries b

theorem Move.blocks (inv : BlocksInv s) (move : Move s t action after)
    (handed : ∀ batch, action = .refill batch → s.Unheld batch) : BlocksInv after := by
  have moved := move
  cases move with
  | @acquire n idle positive small =>
      have enters : (s.go t ((s.source t).enter n)).pc t = (s.source t).enter n :=
        Function.update_self _ _ _
      have owner := (owner_eq enters rfl).trans (owner_enter.trans (owner_eq idle rfl).symm)
      have free := (free_eq enters rfl).trans (free_enter.trans (free_eq idle rfl).symm)
      exact inv.frame rfl rfl rfl (moved.owner_same owner) (moved.free_sublist (free ▸ .refl _))
  | @dropLast n blk pc owned last =>
      have owner : s.owner t = some blk := (owner_eq pc rfl).trans owned
      have put := recycled (s.addUse blk (-1)) t blk (some n)
      have counted := inv.counted.lose owner put.owner_some moved.owner_of_ne
      refine inv.recycle last put.useCount put.entries ?_ ?_ moved.free_of_ne
      · rw [liveOf_congr put.live]
        exact counted
      · rw [put.free, free_eq pc rfl]
        rfl
  | @drop n blk pc owned shared =>
      have owner : s.owner t = some blk := (owner_eq pc rfl).trans owned
      have proceeds : ((s.addUse blk (-1)).go t ((s.source t).proceed n)).pc t =
          (s.source t).proceed n := Function.update_self _ _ _
      have mine := (owner_eq proceeds rfl).trans owner_proceed
      have free := (free_eq proceeds rfl).trans (free_proceed.trans (free_eq pc rfl).symm)
      exact inv.lose owner rfl rfl rfl mine moved.owner_of_ne (moved.free_sublist (free ▸ .refl _))
  | @give blk resume pc =>
      have resumes : (s.go t ((s.source t).resume resume)).pc t = (s.source t).resume resume :=
        Function.update_self _ _ _
      have free := (free_eq resumes rfl).trans (free_resume resume)
      refine inv.frame rfl rfl rfl (moved.owner_same ?_) (moved.free_sublist ?_)
      · cases resume with
        | none => rw [owner_eq resumes rfl, owner_eq pc rfl]; rfl
        | some n => rw [owner_eq resumes rfl, owner_eq pc rfl]; exact owner_proceed
      · rw [free, free_eq pc rfl]
        exact List.sublist_cons_self blk _
  | @refill n batch pc some =>
      refine inv.refill moved (handed batch rfl) ?_ ?_ rfl rfl rfl
      · rw [owner_eq pc rfl, owner_eq (Function.update_self _ _ _) rfl]
        rfl
      · rw [free_eq pc rfl, free_eq (Function.update_self _ _ _) (Function.update_self _ _ _)]
        rfl
  | @consume n blk rest pc queue =>
      refine inv.consume moved (owner_eq pc rfl) ?_ ?_ rfl rfl rfl
      · rw [owner_eq (Function.update_self _ _ _) (Function.update_self _ _ _)]
        rfl
      · rw [free_eq pc rfl, free_eq (Function.update_self _ _ _) (Function.update_self _ _ _)]
        exact queue
  | @take n blk pc owned =>
      refine inv.take moved ((owner_eq pc rfl).trans owned) ?_ ?_ rfl rfl rfl rfl
      · rw [owner_eq (Function.update_self _ _ _) (Function.update_self _ _ _)]
        exact owned
      · rw [free_eq pc rfl, free_eq (Function.update_self _ _ _) (Function.update_self _ _ _)]
        rfl
  | @releaseLast x idle held last =>
      have put := recycled ({ s with live := s.live.erase x }.addUse x.source (-1)) t x.source none
      have owner := put.owner_none.trans (owner_eq idle rfl).symm
      have counted := counted_release inv.counted held put.live (moved.owner_same owner)
      refine inv.recycle last put.useCount put.entries counted ?_ moved.free_of_ne
      rw [put.free, free_eq idle rfl]
      rfl
  | @release x idle held shared =>
      have used := inv.use_pos_of_live held
      exact ⟨counted_release (s := s) inv.counted held rfl fun _ => rfl,
        inv.lists.shrink (fun _ => .refl _) (unused_update used _), inv.entries_update used _⟩
  | @exitOwner blk idle owned =>
      have left : State.owner (((s.addUse blk (-1)).setSource t {}).go t .exited) t = none :=
        (owner_eq (Function.update_self _ _ _) (Function.update_self _ _ _)).trans rfl
      have free : State.free (((s.addUse blk (-1)).setSource t {}).go t .exited) t = [] :=
        (free_eq (Function.update_self _ _ _) (Function.update_self _ _ _)).trans rfl
      refine inv.lose ((owner_eq idle rfl).trans owned) rfl rfl rfl left moved.owner_of_ne
        (moved.free_sublist ?_)
      rw [free]
      exact List.nil_sublist _
  | exit idle owned =>
      have left : State.owner ((s.setSource t {}).go t .exited) t = none :=
        (owner_eq (Function.update_self _ _ _) (Function.update_self _ _ _)).trans rfl
      have free : State.free ((s.setSource t {}).go t .exited) t = [] :=
        (free_eq (Function.update_self _ _ _) (Function.update_self _ _ _)).trans rfl
      have before : s.owner t = none := (owner_eq idle rfl).trans owned
      refine inv.frame rfl rfl rfl (moved.owner_same (left.trans before.symm))
        (moved.free_sublist ?_)
      rw [free]
      exact List.nil_sublist _

theorem blocks_of_reachable (reachable : (system Thread).Reachable s) : BlocksInv s := by
  refine reachable.invariant _ ?_ ?_
  · rintro s rfl
    exact ⟨⟨nofun, fun _ _ => rfl, nofun⟩, ⟨nofun, fun _ => .nil, nofun⟩, fun _ => .inl rfl⟩
  · rintro s ⟨t, action⟩ after _ inv ⟨move, handed⟩
    exact move.blocks inv handed

end Preservation

end NgrCore.LocalSource
