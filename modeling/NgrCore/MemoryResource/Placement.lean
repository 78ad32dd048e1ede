import NgrCore.Library.Places
import NgrCore.LocalSource.Blocks
import NgrCore.MemoryResource.Exhaustion
import NgrCore.RemoteSource.Batches

/-!
Owns where the blocks of the pool are. A block without a use is with one thread or in one
entry of the ring, and the use count of any other block counts its subranges and its owner,
as long as no thread exits with a block that is only its own.
-/

namespace NgrCore.MemoryResource

open NgrCore.Library NgrCore.RemoteSource
open NgrCore.LocalSource (Move Pc Recycled recycled owner_eq free_eq owner_enter free_enter
  owner_proceed free_proceed free_resume resume_ne_exited proceed_ne_exited enter_ne_exited
  counted_take counted_release
  liveOf_congr liveOf_pos)

section Definitions

/-- The blocks that a call holds or has returned. -/
def heldBy : Call → List Addr
  | .returned batch => batch
  | call => call.blocks

/-- A call of `_M_push`, which returns nothing. -/
def InPush : Call → Prop
  | .push _ _ | .returned [] => True
  | _ => False

/-- A call of `_M_prepend`, which returns nothing. -/
def InPrepend : Call → Prop
  | .prepend _ _ _ | .returned [] => True
  | _ => False

namespace Remote

/-- The call of a thread to the ring. -/
def call : Remote → Call
  | .pop _ call | .prepend call | .push call => call
  | _ => .returned []

/-- The region that a thread has mapped and not made blocks of. -/
def region : Remote → Option Addr
  | .claim p | .store _ p => some p
  | _ => none

/-- Where a thread stands in its local source while it is in the remote source. -/
def Fits (pc : Pc) : Remote → Prop
  | .idle => True
  | .push call => (∃ blk resume, pc = .giving blk resume) ∧ InPush call
  | .prepend call => (∃ n, pc = .popping n) ∧ InPrepend call
  | _ => ∃ n, pc = .popping n

end Remote

/-- The places of the blocks that nobody uses. -/
inductive Place (Thread : Type)
  | thread (t : Thread)
  | entry (e : Nat)

variable {Thread : Type}

namespace State

/-- The blocks of the queue of a thread, and those that the thread moves. -/
def holding (s : State Thread) (t : Thread) : List Addr :=
  match s.remote t with
  | .idle => s.heap.free t
  | remote => heldBy remote.call ++ (s.heap.source t).queue

def blocks (s : State Thread) : Place Thread → List Addr
  | .thread t => s.holding t
  | .entry e => (s.ring.entry e).blocks

def Created (s : State Thread) (blk : Addr) : Prop :=
  ∃ p ∈ s.mapped, blk ∈ blocksOf p ∧ ∀ t, (s.remote t).region ≠ some p

end State

/-- The regions do not overlap, and each is in the hands of one thread until its blocks are
constructed. -/
structure Regions (s : State Thread) : Prop where
  apart : ∀ p ∈ s.mapped, ∀ q ∈ s.mapped, p ≠ q → p + V ≤ q ∨ q + V ≤ p
  known : ∀ t p, (s.remote t).region = some p → p ∈ s.mapped
  single : ∀ t u p, (s.remote t).region = some p → (s.remote u).region = some p → t = u

/-- The invariant of the runs in which no exit loses a block. -/
structure Kept (s : State Thread) : Prop where
  regions : Regions s
  fits : ∀ t, (s.remote t).Fits (s.heap.pc t)
  left : ∀ t, s.heap.pc t = .exited → s.heap.source t = {}
  counted : Counted s.heap.useCount s.heap.liveOf s.heap.owner
  known : ∀ blk, s.heap.useCount blk ≠ 0 → s.Created blk
  placed : Placed (fun blk => s.Created blk ∧ s.heap.useCount blk = 0) s.blocks

/-- A thread that exits has an empty queue, and it has no `__consume_` or is not the last to
use it. -/
def SparesExit (s : State Thread) (label : Thread × Action) : Prop :=
  label.2 = .thread .exit → (s.heap.source label.1).queue = [] ∧
    ∀ blk, (s.heap.source label.1).consume = some blk → s.heap.useCount blk ≠ 1

end Definitions

section Ring

variable {ring next : Ring} {call after : Call} {action : RemoteSource.Action}

theorem InPush.move (inPush : InPush call) (move : RemoteSource.Move ring call action next after) :
    InPush after := by
  cases move with
  | push move =>
      cases move with
      | link =>
          split
          · trivial
          · trivial
      | _ => trivial
  | prepend | tryPop => cases inPush

theorem InPrepend.move (inPrepend : InPrepend call)
    (move : RemoteSource.Move ring call action next after) : InPrepend after := by
  cases move with
  | push | tryPop => cases inPrepend
  | prepend move =>
      cases move with
      | retry | reserve =>
          repeat' split
          all_goals trivial
      | publish =>
          unfold Call.prependFrom
          split
          · trivial
          · trivial
      | _ => trivial

theorem heldBy_prependFrom (ptr : List Addr) (k : Nat) :
    heldBy (.prependFrom ptr k) = ptr.drop k := by
  unfold Call.prependFrom
  split
  next empty => exact empty.symm
  next => rfl

theorem setBlocks_self (ring : Ring) (e : Nat) (blocks : List Addr) :
    ((ring.setBlocks e blocks).entry e).blocks = blocks := by
  simp [Ring.setBlocks]

theorem setBlocks_of_ne (ring : Ring) {e f : Nat} (blocks : List Addr) (apart : f ≠ e) :
    ((ring.setBlocks e blocks).entry f).blocks = (ring.entry f).blocks := by
  simp [Ring.setBlocks, apart]

/-- What a call does to the entries: blocks move between the call and one of them. -/
structure Moves (ring : Ring) (call : Call) (next : Ring) (after : Call) (e : Nat) : Prop where
  others : ∀ f, f ≠ e → (next.entry f).blocks = (ring.entry f).blocks
  moved : (heldBy after ++ (next.entry e).blocks).Perm (heldBy call ++ (ring.entry e).blocks)

/-- A step that leaves the lists of the entries and of the call alone. -/
theorem Moves.stay (entries : ∀ f, (next.entry f).blocks = (ring.entry f).blocks)
    (held : heldBy after = heldBy call) : Moves ring call next after 0 :=
  ⟨fun f _ => entries f, by rw [held, entries]⟩

theorem moves (move : RemoteSource.Move ring call action next after) :
    ∃ e, Moves ring call next after e := by
  cases move with
  | push move =>
      cases move with
      | reserve => exact ⟨0, .stay (setN_blocks _ _ _) rfl⟩
      | @link e n old expected =>
          refine ⟨e, fun f apart => setBlocks_of_ne _ _ apart, ?_⟩
          rw [setBlocks_self]
          split
          · exact .refl _
          · exact .refl _
      | _ => exact ⟨0, .stay (fun _ => rfl) rfl⟩
  | @prepend ptr k pc _ _ _ move =>
      cases move with
      | reserve =>
          refine ⟨0, .stay (setN_blocks _ _ _) ?_⟩
          repeat' split
          all_goals rfl
      | retry =>
          refine ⟨0, .stay (fun _ => rfl) ?_⟩
          split
          · rfl
          · rfl
      | @link e n old expected =>
          refine ⟨e, fun f apart => setBlocks_of_ne _ _ apart, ?_⟩
          rw [setBlocks_self]
          change (ptr.drop (k + room n) ++ ((ptr.drop k).take (room n) ++ _)).Perm (ptr.drop k ++ _)
          rw [← List.append_assoc, ← List.drop_drop]
          refine List.Perm.append_right _ (List.perm_append_comm.trans (.of_eq ?_))
          exact List.take_append_drop _ _
      | publish => exact ⟨0, .stay (fun _ => rfl) (heldBy_prependFrom _ _)⟩
      | _ => exact ⟨0, .stay (fun _ => rfl) rfl⟩
  | tryPop move =>
      cases move with
      | @detach e old expected =>
          refine ⟨e, fun f apart => setBlocks_of_ne _ _ apart, ?_⟩
          rw [setBlocks_self, List.append_nil]
          exact List.reverse_perm _
      | reset => exact ⟨0, .stay (setN_blocks _ _ _) rfl⟩
      | _ => exact ⟨0, .stay (fun _ => rfl) rfl⟩

end Ring

section Frame

variable {Thread : Type} {s after : State Thread} {t : Thread}

theorem created_congr (mapped : after.mapped = s.mapped)
    (region : ∀ u, (after.remote u).region = (s.remote u).region) (blk : Addr) :
    after.Created blk ↔ s.Created blk := by
  unfold State.Created
  simp only [mapped, region]

theorem Regions.congr (regions : Regions s) (mapped : after.mapped = s.mapped)
    (region : ∀ u, (after.remote u).region = (s.remote u).region) : Regions after where
  apart p first q second := regions.apart p (mapped ▸ first) q (mapped ▸ second)
  known u p here := mapped ▸ regions.known u p ((region u).symm.trans here)
  single u v p first second :=
    regions.single u v p ((region u).symm.trans first) ((region v).symm.trans second)

theorem holding_idle (idle : s.remote t = .idle) : s.holding t = s.heap.free t := by
  unfold State.holding
  rw [idle]

theorem holding_eq {remote : Remote} (here : s.remote t = remote) (busy : remote ≠ .idle) :
    s.holding t = heldBy remote.call ++ (s.heap.source t).queue := by
  unfold State.holding
  rw [here]
  cases remote with
  | idle => exact absurd rfl busy
  | _ => rfl

theorem holding_congr {u : Thread} (remote : after.remote u = s.remote u)
    (pc : after.heap.pc u = s.heap.pc u) (source : after.heap.source u = s.heap.source u) :
    after.holding u = s.holding u := by
  unfold State.holding LocalSource.State.free
  rw [remote, pc, source]

end Frame

section Local

variable {Thread : Type} {s : State Thread} {t : Thread} {action : LocalSource.Action}
  {heap : LocalSource.State Thread} {blk : Addr}

theorem blocks_mine (idle : s.remote t = .idle) :
    { s with heap }.blocks (.thread t) = heap.free t :=
  holding_idle idle

theorem Kept.use_pos (kept : Kept s) (owned : s.heap.owner t = some blk) :
    0 < s.heap.useCount blk := by
  have counts := kept.counted.owned t blk owned
  omega

theorem Kept.use_pos_of_live (kept : Kept s) {x : LocalSource.Subrange} (held : x ∈ s.heap.live) :
    0 < s.heap.useCount x.source := by
  have counts := kept.counted.refs_le x.source
  have some := liveOf_pos held
  omega

/-- A block that is used and that no thread consumes has a subrange. -/
theorem Kept.exists_live (kept : Kept s) (used : s.heap.useCount blk ≠ 0)
    (unowned : ∀ u, s.heap.owner u ≠ some blk) : ∃ x ∈ s.heap.live, x.source = blk := by
  have counts := kept.counted.unowned blk unowned
  have some : 0 < s.heap.liveOf blk := by omega
  obtain ⟨x, held, same⟩ := List.countP_pos_iff.mp some
  exact ⟨x, held, of_decide_eq_true same⟩

theorem update_eq_zero {count : Int} (used : s.heap.useCount blk ≠ 0) (still : count ≠ 0)
    (b : Addr) : Function.update s.heap.useCount blk count b = 0 ↔ s.heap.useCount b = 0 := by
  by_cases same : b = blk
  · rw [same, Function.update_self]
    exact iff_of_false still used
  · rw [Function.update_of_ne same]

variable [DecidableEq Thread]

/-- A step of a thread in its local source changes only what the thread has. -/
theorem blocks_of_move (move : Move s.heap t action heap)
    (place : Place Thread) (apart : place ≠ .thread t) :
    { s with heap }.blocks place = s.blocks place := by
  cases place with
  | entry e => rfl
  | thread u =>
      have other : u ≠ t := fun same => apart (congrArg Place.thread same)
      obtain ⟨pc, source⟩ := move.others u other
      exact holding_congr rfl pc source

/-- What every step of a thread in its local source leaves alone. -/
theorem Kept.of_move (kept : Kept s) (idle : s.remote t = .idle) (move : Move s.heap t action heap)
    (left : heap.pc t = .exited → heap.source t = {})
    (counted : Counted heap.useCount heap.liveOf heap.owner)
    (known : ∀ b, heap.useCount b ≠ 0 → s.Created b)
    (placed : Placed (fun b => s.Created b ∧ heap.useCount b = 0) { s with heap }.blocks) :
    Kept { s with heap } := by
  refine ⟨kept.regions.congr rfl fun _ => rfl, fun u => ?_, fun u gone => ?_, counted, known,
    placed⟩
  · by_cases mine : u = t
    · rw [mine]
      change (s.remote t).Fits _
      rw [idle]
      trivial
    · change (s.remote u).Fits (heap.pc u)
      rw [(move.others u mine).1]
      exact kept.fits u
  · change heap.source u = {}
    change heap.pc u = .exited at gone
    by_cases mine : u = t
    · rw [mine] at gone ⊢
      exact left gone
    · rw [(move.others u mine).1] at gone
      rw [(move.others u mine).2]
      exact kept.left u gone

theorem Kept.same (kept : Kept s) (idle : s.remote t = .idle) (move : Move s.heap t action heap)
    (left : heap.pc t = .exited → heap.source t = {})
    (counted : Counted heap.useCount heap.liveOf heap.owner)
    (used : ∀ b, heap.useCount b = 0 ↔ s.heap.useCount b = 0)
    (free : heap.free t = s.heap.free t) : Kept { s with heap } := by
  refine kept.of_move idle move left counted (fun b some => kept.known b fun zero =>
    some ((used b).mpr zero)) ?_
  refine (kept.placed.congr fun place => ?_).of_iff fun b => and_congr_right' (used b).symm
  by_cases mine : place = .thread t
  · rw [mine, blocks_mine idle, free]
    exact .of_eq (holding_idle idle).symm
  · rw [blocks_of_move move place mine]

theorem Kept.put (kept : Kept s) (idle : s.remote t = .idle) (move : Move s.heap t action heap)
    (left : heap.pc t = .exited → heap.source t = {})
    (counted : Counted heap.useCount heap.liveOf heap.owner) (last : s.heap.useCount blk = 1)
    (useCount : heap.useCount =
      Function.update s.heap.useCount blk (s.heap.useCount blk + -1))
    (free : heap.free t = blk :: s.heap.free t) : Kept { s with heap } := by
  have created := kept.known blk (by omega)
  have elsewhere (b : Addr) (apart : b ≠ blk) : heap.useCount b = s.heap.useCount b := by
    rw [useCount, Function.update_of_ne apart]
  have zero : heap.useCount blk = 0 := by
    rw [useCount, Function.update_self, last]
    rfl
  refine kept.of_move idle move left counted (fun b some => ?_) ?_
  · refine kept.known b ?_
    rw [← elsewhere b]
    · exact some
    · rintro rfl
      exact some zero
  · have added : Placed _ { s with heap }.blocks := kept.placed.insert (.thread t)
      (List.nodup_singleton blk) ?_ ?_ (blocks_of_move move)
    · refine added.of_iff fun b => ?_
      by_cases same : b = blk
      · rw [same]
        simp [created, zero]
      · simp [same, elsewhere]
    · intro b member
      rw [List.mem_singleton.mp member, last]
      rintro ⟨_, impossible⟩
      cases impossible
    · rw [blocks_mine idle, free]
      exact congrArg (blk :: ·) (holding_idle idle).symm

theorem Kept.take (kept : Kept s) (idle : s.remote t = .idle) (move : Move s.heap t action heap)
    (left : heap.pc t = .exited → heap.source t = {})
    (counted : s.heap.useCount blk = 0 → Counted heap.useCount heap.liveOf heap.owner)
    (useCount : heap.useCount =
      Function.update s.heap.useCount blk (s.heap.useCount blk + 1))
    (free : s.heap.free t = blk :: heap.free t) : Kept { s with heap } := by
  have here : s.blocks (.thread t) = blk :: { s with heap }.blocks (.thread t) := by
    change s.holding t = _
    rw [holding_idle idle, free]
    exact congrArg (blk :: ·) (blocks_mine idle).symm
  obtain ⟨created, unused⟩ := (kept.placed.pool blk).mp
    ⟨.thread t, here ▸ List.mem_cons_self⟩
  have elsewhere (b : Addr) (apart : b ≠ blk) : heap.useCount b = s.heap.useCount b := by
    rw [useCount, Function.update_of_ne apart]
  have one : heap.useCount blk = 1 := by
    rw [useCount, Function.update_self, unused]
    rfl
  refine kept.of_move idle move left (counted unused) (fun b some => ?_) ?_
  · by_cases same : b = blk
    · exact same ▸ created
    · exact kept.known b (elsewhere b same ▸ some)
  · refine (kept.placed.remove here (blocks_of_move move)).of_iff fun b => ?_
    by_cases same : b = blk
    · rw [same]
      simp [one]
    · simp [same, elsewhere]

theorem Kept.move (kept : Kept s) (idle : s.remote t = .idle)
    (own : action = .quiet ∨ action = .exit) (move : Move s.heap t action heap)
    (spares : SparesExit s (t, .thread action)) : Kept { s with heap } := by
  have moved := move
  cases move with
  | @acquire n free positive small =>
      have enters : (s.heap.go t ((s.heap.source t).enter n)).pc t = (s.heap.source t).enter n :=
        Function.update_self _ _ _
      have owner := (owner_eq enters rfl).trans (owner_enter.trans (owner_eq free rfl).symm)
      refine kept.same idle moved ?_ ?_ (fun _ => Iff.rfl) ?_
      · exact fun gone => absurd (enters.symm.trans gone) enter_ne_exited
      · exact kept.counted.congr (moved.owner_same owner) fun _ => rfl
      · exact (free_eq enters rfl).trans (free_enter.trans (free_eq free rfl).symm)
  | @dropLast n blk pc owned last =>
      have owner : s.heap.owner t = some blk := (owner_eq pc rfl).trans owned
      have put := recycled (s.heap.addUse blk (-1)) t blk (some n)
      have counted := kept.counted.lose owner put.owner_some moved.owner_of_ne
      refine kept.put idle moved (fun gone => absurd gone put.not_exited) ?_ last put.useCount ?_
      · rw [liveOf_congr put.live, put.useCount]
        exact counted
      · rw [put.free, free_eq pc rfl]
        rfl
  | @drop n blk pc owned shared =>
      have owner : s.heap.owner t = some blk := (owner_eq pc rfl).trans owned
      have used := kept.use_pos owner
      have proceeds : ((s.heap.addUse blk (-1)).go t ((s.heap.source t).proceed n)).pc t =
          (s.heap.source t).proceed n := Function.update_self _ _ _
      have mine := (owner_eq proceeds rfl).trans owner_proceed
      refine kept.same idle moved ?_ (kept.counted.lose owner mine moved.owner_of_ne)
        (update_eq_zero (by omega) (by omega)) ?_
      · exact fun gone => absurd (proceeds.symm.trans gone) proceed_ne_exited
      · exact (free_eq proceeds rfl).trans (free_proceed.trans (free_eq pc rfl).symm)
  | give | refill => exact absurd own nofun
  | @consume n blk rest pc queue =>
      refine kept.take idle moved ?_ (fun unused => ?_) rfl ?_
      · intro gone
        cases (Function.update_self _ _ _).symm.trans gone
      · refine kept.counted.gain unused (owner_eq pc rfl) ?_ moved.owner_of_ne
        rw [owner_eq (Function.update_self _ _ _) (Function.update_self _ _ _)]
        rfl
      · rw [free_eq pc rfl, free_eq (Function.update_self _ _ _) (Function.update_self _ _ _)]
        exact queue
  | @take n blk pc owned =>
      have owner : s.heap.owner t = some blk := (owner_eq pc rfl).trans owned
      have used := kept.use_pos owner
      refine kept.same idle moved ?_ ?_ (update_eq_zero (by omega) (by omega)) ?_
      · intro gone
        cases (Function.update_self _ _ _).symm.trans gone
      · refine counted_take (s := s.heap) (x := ⟨blk, _, n⟩) kept.counted rfl
          (moved.owner_same ?_)
        rw [owner, owner_eq (Function.update_self _ _ _) (Function.update_self _ _ _)]
        exact owned
      · rw [free_eq pc rfl, free_eq (Function.update_self _ _ _) (Function.update_self _ _ _)]
        rfl
  | @releaseLast x free held last =>
      have put := recycled
        ({ s.heap with live := s.heap.live.erase x }.addUse x.source (-1)) t x.source none
      have owner := put.owner_none.trans (owner_eq free rfl).symm
      refine kept.put idle moved (fun gone => absurd gone put.not_exited) ?_ last put.useCount ?_
      · rw [put.useCount]
        exact counted_release (s := s.heap) kept.counted held put.live (moved.owner_same owner)
      · rw [put.free, free_eq free rfl]
        rfl
  | @release x free held shared =>
      have used := kept.use_pos_of_live held
      have still : s.heap.useCount x.source + -1 ≠ 0 := by omega
      refine kept.same idle moved ?_ ?_ (update_eq_zero (by omega) still) rfl
      · exact fun gone => absurd (gone.symm.trans free) nofun
      · exact counted_release (s := s.heap) kept.counted held rfl fun _ => rfl
  | @exitOwner blk free owned =>
      have owner : s.heap.owner t = some blk := (owner_eq free rfl).trans owned
      have used := kept.use_pos owner
      obtain ⟨empty, others⟩ := spares rfl
      have shared := others blk owned
      refine kept.same idle moved (fun _ => Function.update_self _ _ _)
        (kept.counted.lose owner ?_ moved.owner_of_ne) (update_eq_zero (by omega) (by omega)) ?_
      · exact (owner_eq (Function.update_self _ _ _) (Function.update_self _ _ _)).trans rfl
      · rw [free_eq (Function.update_self _ _ _) (Function.update_self _ _ _), free_eq free rfl]
        exact empty.symm
  | exit free owned =>
      obtain ⟨empty, _⟩ := spares rfl
      have before : s.heap.owner t = none := (owner_eq free rfl).trans owned
      refine kept.same idle moved (fun _ => Function.update_self _ _ _)
        (kept.counted.congr (moved.owner_same ?_) fun _ => rfl) (fun _ => Iff.rfl) ?_
      · rw [before, owner_eq (Function.update_self _ _ _) (Function.update_self _ _ _)]
        rfl
      · rw [free_eq (Function.update_self _ _ _) (Function.update_self _ _ _), free_eq free rfl]
        exact empty.symm

end Local

section Remote

variable {Thread : Type} [DecidableEq Thread] {s after : State Thread} {t : Thread}
  {remote : Remote}

theorem region_update (remotes : after.remote = Function.update s.remote t remote)
    (same : remote.region = (s.remote t).region) (u : Thread) :
    (after.remote u).region = (s.remote u).region := by
  rw [remotes, Function.update_apply]
  split
  next mine => rw [same, mine]
  next => rfl

/-- A thread moves on in the remote source, or leaves it; the use counts stay. -/
theorem Kept.go (kept : Kept s) (remotes : after.remote = Function.update s.remote t remote)
    (mapped : after.mapped = s.mapped) (region : remote.region = (s.remote t).region)
    (useCount : after.heap.useCount = s.heap.useCount) (live : after.heap.live = s.heap.live)
    (owner : ∀ u, after.heap.owner u = s.heap.owner u)
    (others : ∀ u, u ≠ t →
      after.heap.pc u = s.heap.pc u ∧ after.heap.source u = s.heap.source u)
    (stays : after.heap.pc t ≠ .exited) (fits : remote.Fits (after.heap.pc t))
    (placed : Placed (fun b => s.Created b ∧ s.heap.useCount b = 0) after.blocks) :
    Kept after := by
  have regions := region_update remotes region
  have created := created_congr mapped regions
  refine ⟨kept.regions.congr mapped regions, fun u => ?_, fun u gone => ?_, ?_, fun b some => ?_,
    placed.of_iff fun b => ?_⟩
  · rw [remotes]
    by_cases mine : u = t
    · rw [mine, Function.update_self]
      exact fits
    · rw [Function.update_of_ne mine, (others u mine).1]
      exact kept.fits u
  · by_cases mine : u = t
    · exact absurd (mine ▸ gone) stays
    · rw [(others u mine).2]
      exact kept.left u ((others u mine).1.symm.trans gone)
  · rw [useCount, liveOf_congr live]
    exact kept.counted.congr owner fun _ => rfl
  · rw [useCount] at some
    exact (created b).mpr (kept.known b some)
  · rw [created, useCount]

theorem blocks_of_go (remotes : after.remote = Function.update s.remote t remote)
    (others : ∀ u, u ≠ t →
      after.heap.pc u = s.heap.pc u ∧ after.heap.source u = s.heap.source u)
    (u : Thread) (apart : u ≠ t) : after.holding u = s.holding u :=
  holding_congr (by rw [remotes, Function.update_of_ne apart]) (others u apart).1
    (others u apart).2

theorem Kept.placed_same (kept : Kept s)
    (remotes : after.remote = Function.update s.remote t remote) (ring : after.ring = s.ring)
    (others : ∀ u, u ≠ t →
      after.heap.pc u = s.heap.pc u ∧ after.heap.source u = s.heap.source u)
    (same : after.holding t = s.holding t) :
    Placed (fun b => s.Created b ∧ s.heap.useCount b = 0) after.blocks := by
  refine kept.placed.congr fun place => .of_eq ?_
  cases place with
  | entry e => exact congrArg (fun ring : Ring => (ring.entry e).blocks) ring
  | thread u =>
      by_cases mine : u = t
      · exact mine ▸ same
      · exact blocks_of_go remotes others u mine

/-- A thread moves on with the same blocks and nothing else changes. -/
theorem Kept.stay (kept : Kept s) (region : remote.region = (s.remote t).region)
    (stays : s.heap.pc t ≠ .exited) (fits : remote.Fits (s.heap.pc t))
    (same : (s.go t remote).holding t = s.holding t) : Kept (s.go t remote) :=
  kept.go rfl rfl region rfl rfl (fun _ => rfl) (fun _ _ => ⟨rfl, rfl⟩) stays fits
    (kept.placed_same rfl rfl (fun _ _ => ⟨rfl, rfl⟩) same)

theorem holding_go (busy : remote ≠ .idle) :
    (s.go t remote).holding t = heldBy remote.call ++ (s.heap.source t).queue :=
  holding_eq (Function.update_self _ _ _) busy

theorem Kept.call (kept : Kept s) {action : RemoteSource.Action} {next : Ring}
    (move : RemoteSource.Move s.ring (s.remote t).call action next remote.call)
    (busy : s.remote t ≠ .idle) (still : remote ≠ .idle)
    (region : remote.region = (s.remote t).region)
    (stays : s.heap.pc t ≠ .exited) (fits : remote.Fits (s.heap.pc t)) :
    Kept ({ s with ring := next }.go t remote) := by
  obtain ⟨e, others, moved⟩ := moves move
  refine kept.go rfl rfl region rfl rfl (fun _ => rfl) (fun _ _ => ⟨rfl, rfl⟩) stays fits ?_
  refine kept.placed.transfer (.thread t) (.entry e) nofun ?_ ?_
  · intro place notThread notEntry
    cases place with
    | entry f => exact others f fun same => notEntry (congrArg Place.entry same)
    | thread u =>
        have apart : u ≠ t := fun same => notThread (congrArg Place.thread same)
        exact holding_congr (Function.update_of_ne apart _ _) rfl rfl
  · change (State.holding _ t ++ (next.entry e).blocks).Perm
      (s.holding t ++ (s.ring.entry e).blocks)
    rw [holding_go still, holding_eq rfl busy]
    have swap (first second third : List Addr) :
        (first ++ second ++ third).Perm (first ++ third ++ second) := by
      rw [List.append_assoc, List.append_assoc]
      exact List.perm_append_comm.append_left first
    exact (swap _ _ _).trans ((moved.append_right _).trans (swap _ _ _))

end Remote

/-! ### New blocks -/

section Mapping

variable {Thread : Type} {s : State Thread} {p q : Addr} {blk : Addr}

theorem inside_region {p j : Nat} (small : j < M) :
    p ≤ p + 4096 + 4160 * j ∧ p + 4096 + 4160 * j < p + V := by
  have size : V = 270336 := by decide
  unfold M at small
  omega

theorem disjoint_regions {p q blk : Nat} (here : p ≤ blk ∧ blk < p + V)
    (there : q ≤ blk ∧ blk < q + V) : ¬ (p + V ≤ q ∨ q + V ≤ p) := by
  omega

theorem mem_blocksOf : blk ∈ blocksOf p ↔ ∃ j < M, p + 4096 + 4160 * j = blk := by
  simp [blocksOf]

theorem blocksOf_length (p : Addr) : (blocksOf p).length = M := by
  simp [blocksOf]

theorem blocksOf_nodup (p : Addr) : (blocksOf p).Nodup := by
  refine List.Nodup.map_on ?_ List.nodup_range
  intro i _ j _ same
  exact Nat.eq_of_mul_eq_mul_left (by decide) (Nat.add_left_cancel same)

theorem blocksOf_inside (member : blk ∈ blocksOf p) : p ≤ blk ∧ blk < p + V := by
  obtain ⟨j, small, rfl⟩ := mem_blocksOf.mp member
  exact inside_region small

theorem Regions.eq_of_mem (regions : Regions s) (first : p ∈ s.mapped) (second : q ∈ s.mapped)
    (here : blk ∈ blocksOf p) (there : blk ∈ blocksOf q) : p = q := by
  by_contra different
  exact disjoint_regions (blocksOf_inside here) (blocksOf_inside there)
    (regions.apart p first q second different)

variable [DecidableEq Thread] {t : Thread}

theorem Regions.map (regions : Regions s) (fresh : s.Fresh p)
    (before : (s.remote t).region = none) :
    Regions ({ s with mapped := s.mapped ++ [p] }.go t (.claim p)) := by
  have new : p ∉ s.mapped := fresh.not_mem
  have region (u : Thread) (q : Addr)
      (here : (({ s with mapped := s.mapped ++ [p] }.go t (.claim p)).remote u).region = some q) :
      (u = t ∧ q = p) ∨ (s.remote u).region = some q := by
    change (Function.update s.remote t (.claim p) u).region = some q at here
    by_cases mine : u = t
    · rw [mine, Function.update_self] at here
      exact .inl ⟨mine, (Option.some.inj here).symm⟩
    · rw [Function.update_of_ne mine] at here
      exact .inr here
  refine ⟨?_, fun u q here => ?_, fun u w q first second => ?_⟩
  · intro q first r second different
    rcases List.mem_append.mp first with old | single
    · rcases List.mem_append.mp second with also | single
      · exact regions.apart q old r also different
      · rw [List.mem_singleton.mp single]
        exact (fresh.2.2 q old).symm
    · rw [List.mem_singleton.mp single] at different ⊢
      rcases List.mem_append.mp second with also | single
      · exact fresh.2.2 r also
      · exact absurd (List.mem_singleton.mp single).symm different
  · rcases region u q here with ⟨_, rfl⟩ | old
    · exact List.mem_append_right _ (List.mem_singleton_self q)
    · exact List.mem_append_left _ (regions.known u q old)
  · rcases region u q first with ⟨rfl, same⟩ | old
    · rcases region w q second with ⟨rfl, _⟩ | also
      · rfl
      · exact absurd (same ▸ regions.known w q also) new
    · rcases region w q second with ⟨rfl, same⟩ | also
      · exact absurd (same ▸ regions.known u q old) new
      · exact regions.single u w q old also

/-- A region in the hands of a thread has no blocks yet. -/
theorem created_map (fresh : s.Fresh p) (before : (s.remote t).region = none) (blk : Addr) :
    ({ s with mapped := s.mapped ++ [p] }.go t (.claim p)).Created blk ↔ s.Created blk := by
  have new : p ∉ s.mapped := fresh.not_mem
  constructor
  · rintro ⟨q, known, member, nobody⟩
    have different : q ≠ p := by
      rintro rfl
      refine nobody t ?_
      change (Function.update s.remote t (.claim q) t).region = some q
      rw [Function.update_self]
      rfl
    rcases List.mem_append.mp known with old | single
    · refine ⟨q, old, member, fun u here => ?_⟩
      have mine : u ≠ t := by
        rintro rfl
        cases here.symm.trans before
      exact nobody u ((congrArg Remote.region (Function.update_of_ne mine _ _)).trans here)
    · exact absurd (List.mem_singleton.mp single) different
  · rintro ⟨q, known, member, nobody⟩
    refine ⟨q, List.mem_append_left _ known, member, fun u here => ?_⟩
    change (Function.update s.remote t (.claim p) u).region = some q at here
    by_cases mine : u = t
    · rw [mine, Function.update_self] at here
      exact new (Option.some.inj here ▸ known)
    · rw [Function.update_of_ne mine] at here
      exact nobody u here

theorem Kept.map (kept : Kept s) (pc : s.remote t = .allocate) (fresh : s.Fresh p) :
    Kept ({ s with mapped := s.mapped ++ [p] }.go t (.claim p)) := by
  have before : (s.remote t).region = none := by
    rw [pc]
    rfl
  have created := created_map fresh before
  refine ⟨kept.regions.map fresh before, fun u => ?_, kept.left, kept.counted,
    fun b some => (created b).mpr (kept.known b some), ?_⟩
  · change (Function.update s.remote t (.claim p) u).Fits (s.heap.pc u)
    have fits := kept.fits u
    by_cases mine : u = t
    · rw [mine, Function.update_self]
      rw [mine, pc] at fits
      exact fits
    · rw [Function.update_of_ne mine]
      exact fits
  · refine (kept.placed.congr fun place => .of_eq ?_).of_iff fun b => by rw [created]; rfl
    cases place with
    | entry e => rfl
    | thread u =>
        change State.holding _ u = s.holding u
        by_cases mine : u = t
        · rw [mine, holding_eq pc nofun]
          exact holding_go nofun
        · exact holding_congr (Function.update_of_ne mine _ _) rfl rfl

theorem created_store {index : Nat} (regions : Regions s) (pc : s.remote t = .store index p)
    {remote : Remote} (region : remote.region = none) (blk : Addr) :
    ((s.construct index p).go t remote).Created blk ↔ s.Created blk ∨ blk ∈ blocksOf p := by
  have mine : (s.remote t).region = some p := by
    rw [pc]
    rfl
  have now (u : Thread) (q : Addr) :
      (((s.construct index p).go t remote).remote u).region = some q ↔
        u ≠ t ∧ (s.remote u).region = some q := by
    change (Function.update s.remote t remote u).region = some q ↔ _
    by_cases same : u = t
    · rw [same, Function.update_self, region]
      simp
    · rw [Function.update_of_ne same]
      simp [same]
  constructor
  · rintro ⟨q, known, member, nobody⟩
    by_cases same : q = p
    · exact .inr (same ▸ member)
    · refine .inl ⟨q, known, member, fun u here => nobody u ((now u q).mpr ⟨?_, here⟩)⟩
      rintro rfl
      exact same (Option.some.inj (here.symm.trans mine))
  · rintro (⟨q, known, member, nobody⟩ | member)
    · exact ⟨q, known, member, fun u here => nobody u ((now u q).mp here).2⟩
    · refine ⟨p, regions.known t p mine, member, fun u here => ?_⟩
      obtain ⟨different, also⟩ := (now u p).mp here
      exact different (regions.single u t p also mine)

theorem Kept.store {index : Nat} (kept : Kept s) (pc : s.remote t = .store index p) :
    Kept ((s.construct index p).go t (.prepend (.prependFrom (blocksOf p) 0))) := by
  have mine : (s.remote t).region = some p := by
    rw [pc]
    rfl
  have new (b : Addr) (member : b ∈ blocksOf p) : ¬ s.Created b := by
    rintro ⟨q, known, there, nobody⟩
    have same := kept.regions.eq_of_mem (kept.regions.known t p mine) known member there
    exact nobody t (same ▸ mine)
  have useCount : (s.construct index p).heap.useCount = s.heap.useCount := by
    funext b
    change (if b ∈ blocksOf p then 0 else s.heap.useCount b) = s.heap.useCount b
    split
    next member => exact (not_not.mp fun some => new b member (kept.known b some)).symm
    next => rfl
  have region : (Remote.prepend (.prependFrom (blocksOf p) 0)).region = none := rfl
  have created := created_store kept.regions pc region
  obtain ⟨n, popping⟩ : ∃ n, s.heap.pc t = .popping n := by
    have fits := kept.fits t
    rw [pc] at fits
    exact fits
  have regions : Regions ((s.construct index p).go t (.prepend (.prependFrom (blocksOf p) 0))) := by
    have now (u : Thread) (q : Addr) (here : (((s.construct index p).go t
        (.prepend (.prependFrom (blocksOf p) 0))).remote u).region = some q) :
        (s.remote u).region = some q := by
      change (Function.update s.remote t _ u).region = some q at here
      by_cases same : u = t
      · rw [same, Function.update_self] at here
        cases here
      · rw [Function.update_of_ne same] at here
        exact here
    exact ⟨kept.regions.apart, fun u q here => kept.regions.known u q (now u q here),
      fun u w q first second => kept.regions.single u w q (now u q first) (now w q second)⟩
  refine ⟨regions, fun u => ?_, kept.left, ?_, fun b some => ?_, ?_⟩
  · change (Function.update s.remote t _ u).Fits (s.heap.pc u)
    by_cases same : u = t
    · rw [same, Function.update_self, popping]
      refine ⟨⟨n, rfl⟩, ?_⟩
      unfold Call.prependFrom
      split
      · trivial
      · trivial
    · rw [Function.update_of_ne same]
      exact kept.fits u
  · change Counted (s.construct index p).heap.useCount s.heap.liveOf s.heap.owner
    rw [useCount]
    exact kept.counted
  · change (s.construct index p).heap.useCount b ≠ 0 at some
    rw [useCount] at some
    exact (created b).mpr (.inl (kept.known b some))
  · have added : Placed _
        ((s.construct index p).go t (.prepend (.prependFrom (blocksOf p) 0))).blocks :=
      kept.placed.insert (.thread t) (blocksOf_nodup p)
        (fun b member known => new b member known.1) ?_ ?_
    · refine added.of_iff fun b => ?_
      change _ ↔ _ ∧ (s.construct index p).heap.useCount b = 0
      rw [useCount, created]
      constructor
      · rintro (⟨known, unused⟩ | member)
        · exact ⟨.inl known, unused⟩
        · exact ⟨.inr member, not_not.mp fun some => new b member (kept.known b some)⟩
      · rintro ⟨known | member, unused⟩
        · exact .inl ⟨known, unused⟩
        · exact .inr member
    · change State.holding _ t = blocksOf p ++ s.holding t
      rw [holding_go (by nofun), holding_eq pc nofun]
      exact congrArg (· ++ (s.heap.source t).queue) (heldBy_prependFrom (blocksOf p) 0)
    · intro place apart
      cases place with
      | entry e => rfl
      | thread u =>
          have other : u ≠ t := fun same => apart (congrArg Place.thread same)
          exact holding_congr (Function.update_of_ne other _ _) rfl rfl

end Mapping

/-! ### Every step -/

section Steps

variable {Thread : Type} [DecidableEq Thread] {s after : State Thread} {t : Thread}

theorem InPush.returned {batch : List Addr} (inPush : InPush (.returned batch)) : batch = [] := by
  cases batch with
  | nil => rfl
  | cons => cases inPush

theorem InPrepend.returned {batch : List Addr} (inPrepend : InPrepend (.returned batch)) :
    batch = [] := by
  cases batch with
  | nil => rfl
  | cons => cases inPrepend

theorem Kept.refill (kept : Kept s) {spin : Nat} {batch : List Addr}
    {heap : LocalSource.State Thread} (pc : s.remote t = .pop spin (.returned batch))
    (move : Move s.heap t (.refill batch) heap) : Kept ({ s with heap }.go t .idle) := by
  have moved := move
  cases move with
  | @refill n _ popping some =>
      have owner := moved.owner_same (owner_eq (Function.update_self _ _ _) rfl |>.trans
        (owner_eq popping rfl).symm)
      refine kept.go rfl rfl (by rw [pc]; rfl) rfl rfl owner moved.others ?_ trivial ?_
      · intro gone
        cases (Function.update_self _ _ _).symm.trans gone
      · refine kept.placed_same (t := t) rfl rfl moved.others ?_
        rw [holding_idle (Function.update_self _ _ _), holding_eq pc nofun]
        change LocalSource.State.free ((s.heap.setSource t _).go t _) t = _
        rw [free_eq (Function.update_self _ _ _) (Function.update_self _ _ _)]
        rfl

theorem Kept.give (kept : Kept s) {batch : List Addr} {blk : Addr}
    {heap : LocalSource.State Thread} (pc : s.remote t = .push (.returned batch))
    (move : Move s.heap t (.give blk) heap) : Kept ({ s with heap }.go t .idle) := by
  have moved := move
  have empty : batch = [] := by
    have fits := kept.fits t
    rw [pc] at fits
    exact fits.2.returned
  cases move with
  | @give _ resume giving =>
      have resumes : (s.heap.go t ((s.heap.source t).resume resume)).pc t =
          (s.heap.source t).resume resume := Function.update_self _ _ _
      have owner := moved.owner_same ((owner_eq resumes rfl).trans ?_)
      refine kept.go rfl rfl (by rw [pc]; rfl) rfl rfl owner moved.others ?_ trivial ?_
      · exact fun gone => absurd (resumes.symm.trans gone) resume_ne_exited
      · refine kept.placed_same (t := t) rfl rfl moved.others ?_
        rw [holding_idle (Function.update_self _ _ _), holding_eq pc nofun, empty]
        exact (free_eq resumes rfl).trans (free_resume resume)
      · rw [owner_eq giving rfl]
        cases resume with
        | none => rfl
        | some n => exact owner_proceed

theorem Kept.step (kept : Kept s) {action : Action} (step : Act s t action after)
    (spares : SparesExit s (t, action)) : Kept after := by
  have fits := kept.fits t
  cases step with
  | thread idle own move => exact kept.move idle own move spares
  | beginPop pc idle =>
      refine kept.stay (by rw [idle]; rfl) (by rw [pc]; nofun) ⟨_, pc⟩ ?_
      rw [holding_go (by nofun), holding_idle idle, free_eq pc rfl]
      rfl
  | tryPop pc move =>
      rw [pc] at fits
      obtain ⟨n, popping⟩ := fits
      exact kept.call (by rw [pc]; exact move) (by rw [pc]; nofun) nofun (by rw [pc]; rfl)
        (by rw [popping]; nofun) ⟨n, popping⟩
  | refill pc some move => exact kept.refill pc move
  | spin pc below =>
      rw [pc] at fits
      obtain ⟨n, popping⟩ := fits
      refine kept.stay (by rw [pc]; rfl) (by rw [popping]; nofun) ⟨n, popping⟩ ?_
      rw [holding_go (by nofun), holding_eq pc nofun]
      rfl
  | giveUp pc reached =>
      rw [pc] at fits
      obtain ⟨n, popping⟩ := fits
      refine kept.stay (by rw [pc]; rfl) (by rw [popping]; nofun) ⟨n, popping⟩ ?_
      rw [holding_go (by nofun), holding_eq pc nofun]
      rfl
  | map pc fresh => exact kept.map pc fresh
  | mapFailed pc =>
      exact ⟨kept.regions.congr rfl fun _ => rfl, kept.fits, kept.left, kept.counted, kept.known,
        kept.placed⟩
  | claim pc =>
      rw [pc] at fits
      obtain ⟨n, popping⟩ := fits
      refine kept.go rfl rfl (by rw [pc]; rfl) rfl rfl (fun _ => rfl) (fun _ _ => ⟨rfl, rfl⟩)
        ?_ ⟨n, popping⟩ (kept.placed_same (t := t) rfl rfl (fun _ _ => ⟨rfl, rfl⟩) ?_)
      · change s.heap.pc t ≠ .exited
        rw [popping]
        nofun
      · rw [holding_go (by nofun), holding_eq pc nofun]
        rfl
  | store pc => exact kept.store pc
  | prepend pc move =>
      rw [pc] at fits
      obtain ⟨⟨n, popping⟩, inPrepend⟩ := fits
      exact kept.call (by rw [pc]; exact move) (by rw [pc]; nofun) nofun (by rw [pc]; rfl)
        (by rw [popping]; nofun) ⟨⟨n, popping⟩, inPrepend.move move⟩
  | prepended pc =>
      rw [pc] at fits
      obtain ⟨⟨n, popping⟩, inPrepend⟩ := fits
      refine kept.stay (by rw [pc]; rfl) (by rw [popping]; nofun) ⟨n, popping⟩ ?_
      rw [holding_go (by nofun), holding_eq pc nofun, inPrepend.returned]
      rfl
  | beginPush pc idle =>
      refine kept.stay (by rw [idle]; rfl) (by rw [pc]; nofun) ⟨⟨_, _, pc⟩, trivial⟩ ?_
      rw [holding_go (by nofun), holding_idle idle, free_eq pc rfl]
      rfl
  | push pc move =>
      rw [pc] at fits
      obtain ⟨⟨blk, resume, giving⟩, inPush⟩ := fits
      exact kept.call (by rw [pc]; exact move) (by rw [pc]; nofun) nofun (by rw [pc]; rfl)
        (by rw [giving]; nofun) ⟨⟨blk, resume, giving⟩, inPush.move move⟩
  | pushed pc move => exact kept.give pc move

omit [DecidableEq Thread] in
theorem kept_start : Kept ({} : State Thread) := by
  refine ⟨⟨nofun, nofun, nofun⟩, fun _ => trivial, nofun, ⟨nofun, fun _ _ => rfl, nofun⟩,
    fun _ some => absurd rfl some, ⟨?_, ?_, ?_⟩⟩
  · rintro (t | e)
    · exact .nil
    · exact .nil
  · rintro (t | e) _ _ here
    · cases here
    · cases here
  · intro blk
    constructor
    · rintro ⟨t | e, here⟩
      · cases here
      · cases here
    · rintro ⟨⟨p, known, _⟩, _⟩
      cases known

/-- The places of the blocks, along every run in which no exit loses a block. -/
theorem kept_of_spared (reachable : ((system Thread).restrict SparesExit).Reachable s) :
    Kept s := by
  refine reachable.invariant _ ?_ ?_
  · rintro _ rfl
    exact kept_start
  · rintro s ⟨t, action⟩ after _ kept ⟨spares, _, step⟩
    exact kept.step step spares

end Steps

end NgrCore.MemoryResource
