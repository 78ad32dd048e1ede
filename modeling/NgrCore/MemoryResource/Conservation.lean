import NgrCore.MemoryResource.Recovery

/-!
Owns the blocks that can still be got at: every block that `_M_allocate` has constructed is in a
list, with a thread or in a subrange, as long as no thread exits with blocks that are only its
own; and a thread that is left alone can acquire all of them again.
-/

namespace NgrCore.MemoryResource

open NgrCore.RemoteSource
open NgrCore.LocalSource (Move Pc Source Subrange owner_eq free_eq recycled liveOf_pos)

section Definitions

variable {Thread : Type}

/-- The block is in an entry of the ring, with a thread that has not exited, or in a live
subrange. -/
def Recoverable (s : State Thread) (blk : Addr) : Prop :=
  (∃ e, blk ∈ (s.ring.entry e).blocks) ∨
    (∃ t, s.heap.pc t ≠ .exited ∧ (blk ∈ s.holding t ∨ s.heap.owner t = some blk)) ∨
    ∃ x ∈ s.heap.live, x.source = blk

/-- No call of `_M_prepend` has read past `__ptr` or spliced a piece that does not end behind
its beginning. -/
def Inside (s : State Thread) : Prop :=
  ∀ t ptr k, s.remote t ≠ .prepend (.prepend ptr k .outOfBounds) ∧
    s.remote t ≠ .prepend (.prepend ptr k .misplaced)

/-- The steps that lose no block: exits spare what a thread has, and a call of `_M_prepend`
that reserves places has the blocks for them. -/
structure Spares (s : State Thread) (label : Thread × Action) : Prop where
  exits : SparesExit s label
  enough : label.2 = .ring .reserve → ∀ ptr k e n,
    s.remote label.1 = .prepend (.prepend ptr k (.reserve e n)) →
      n = T ∨ (0 < room n ∧ k + room n ≤ ptr.length)

variable [DecidableEq Thread]

/-- No block is lost. -/
structure Conserved (s : State Thread) : Prop where
  recoverable : ∀ blk, s.Created blk → Recoverable s blk
  /-- The last subrange of a block that no thread consumes brings it into a list. -/
  final : ∀ t x heap, s.remote t = .idle → x ∈ s.heap.live → s.heap.liveOf x.source = 1 →
    (∀ u, s.heap.owner u ≠ some x.source) → Move s.heap t .quiet heap →
    heap.live = s.heap.live.erase x → x.source ∈ { s with heap }.holding t

/-- A thread that is left alone acquires any block by steps of its own, without a further
`_M_allocate`. -/
def Recovers (s : State Thread) : Prop :=
  ∀ t, Alone t s → ∀ blk, s.Created blk →
    ∃ after, Solo t s after ∧ ∃ x ∈ after.heap.live, x.source = blk

/-- The steps that keep the pool in order, with batches left to publish. -/
structure Lasting (s : State Thread) (label : Thread × Action) : Prop where
  tidy : Tidy s label
  spare : label.2 = .ring .publish → s.ring.head.toNat + 3 < 2 ^ 32

end Definitions

/-! ### Blocks that are not lost -/

section Kept

variable {Thread : Type} {s : State Thread} {t : Thread} {blk : Addr}

theorem Kept.recoverable (kept : Kept s) (created : s.Created blk) : Recoverable s blk := by
  have running (t : Thread) (here : blk ∈ s.holding t ∨ s.heap.owner t = some blk) :
      s.heap.pc t ≠ .exited := by
    intro gone
    have nothing := kept.left t gone
    rcases here with held | owned
    · rw [holding_idle ((kept.fits t).idle (.inl gone)), free_eq gone nothing] at held
      cases held
    · rw [owner_eq gone nothing] at owned
      cases owned
  by_cases unused : s.heap.useCount blk = 0
  · obtain ⟨place, here⟩ := (kept.placed.pool blk).mpr ⟨created, unused⟩
    cases place with
    | entry e => exact .inl ⟨e, here⟩
    | thread t => exact .inr (.inl ⟨t, running t (.inl here), .inl here⟩)
  · by_cases owned : ∃ t, s.heap.owner t = some blk
    · obtain ⟨t, owned⟩ := owned
      exact .inr (.inl ⟨t, running t (.inr owned), .inr owned⟩)
    · exact .inr (.inr (kept.exists_live unused fun t own => owned ⟨t, own⟩))

theorem eq_of_erase {first second : Subrange} {live : List Subrange} (here : first ∈ live)
    (there : second ∈ live) (same : live.erase first = live.erase second) : first = second := by
  by_contra apart
  have perm := (List.perm_cons_erase here).symm.trans (List.perm_cons_erase there)
  rw [same] at perm
  have counts := perm.count_eq second
  rw [List.count_cons_of_ne apart, List.count_cons_self] at counts
  omega

variable [DecidableEq Thread]

/-- The count of the last subrange is 1, and whoever releases it finds that. -/
theorem Kept.final (kept : Kept s) {x : Subrange} {heap : LocalSource.State Thread}
    (idle : s.remote t = .idle) (held : x ∈ s.heap.live) (single : s.heap.liveOf x.source = 1)
    (unowned : ∀ u, s.heap.owner u ≠ some x.source) (move : Move s.heap t .quiet heap)
    (released : heap.live = s.heap.live.erase x) : x.source ∈ { s with heap }.holding t := by
  have last : s.heap.useCount x.source = 1 := by
    rw [kept.counted.unowned _ unowned, single]
    rfl
  have shorter := congrArg List.length released
  rw [List.length_erase_of_mem held] at shorter
  have some := List.length_pos_of_mem held
  change x.source ∈ { s with heap }.blocks (.thread t)
  rw [blocks_mine idle]
  cases move with
  | acquire | drop | consume =>
      change s.heap.live.length = _ at shorter
      omega
  | take =>
      change s.heap.live.length + 1 = _ at shorter
      omega
  | @dropLast n blk =>
      rw [(recycled _ t blk (Option.some n)).live] at shorter
      change s.heap.live.length = _ at shorter
      omega
  | @releaseLast y free member once =>
      rw [(recycled _ t y.source none).live] at released
      have same := eq_of_erase member held released
      change x.source ∈ LocalSource.State.free (LocalSource.State.recycle _ t y.source none) t
      rw [(recycled _ t y.source none).free, same]
      exact List.mem_cons_self
  | @release y free member shared =>
      rw [eq_of_erase member held released] at shared
      exact absurd last shared

theorem conserved_of_kept (kept : Kept s) : Conserved s :=
  ⟨fun _ => kept.recoverable, fun _ _ _ idle held single unowned move released =>
    kept.final idle held single unowned move released⟩

theorem Act.exit {after : State Thread} (act : Act s t (.thread .exit) after) :
    s.remote t = .idle ∧ s.heap.pc t = .idle ∧ after.ring = s.ring ∧
      after.heap.live = s.heap.live ∧ after.remote = s.remote ∧ after.mapped = s.mapped ∧
      after.heap.pc t = .exited := by
  cases act with
  | thread idle own move =>
      cases move with
      | exitOwner free | exit free =>
          exact ⟨idle, free, rfl, rfl, rfl, rfl, Function.update_self _ _ _⟩

/-- A block that is only with a thread is lost with it. -/
theorem lost_of_exit {after : State Thread} (act : Act s t (.thread .exit) after)
    (created : s.Created blk) (entries : ∀ e, blk ∉ (s.ring.entry e).blocks)
    (others : ∀ u, u ≠ t → blk ∉ s.holding u ∧ s.heap.owner u ≠ some blk)
    (unused : s.heap.liveOf blk = 0) : after.Created blk ∧ ¬ Recoverable after blk := by
  obtain ⟨idle, free, ring, live, remote, mapped, gone⟩ := act.exit
  refine ⟨(created_congr mapped (fun u => congrArg _ (congrFun remote u)) blk).mpr created, ?_⟩
  rintro (⟨e, here⟩ | ⟨u, running, here⟩ | ⟨x, held, same⟩)
  · exact entries e (ring ▸ here)
  · have apart : u ≠ t := by
      rintro rfl
      exact running gone
    obtain ⟨far, pc, source⟩ := act.others u apart
    rcases here with held | owned
    · exact (others u apart).1 (holding_congr far pc source ▸ held)
    · refine (others u apart).2 (Eq.trans ?_ owned)
      exact (owner_eq pc source).symm
  · rw [live] at held
    have some := liveOf_pos held
    rw [same] at some
    omega

/-- An exit with blocks that are only its own loses one of them. -/
theorem exit_loses {after : State Thread} (kept : Kept s) (act : Act s t (.thread .exit) after)
    (spoils : ¬ SparesExit s (t, .thread .exit)) :
    ∃ blk, after.Created blk ∧ ¬ Recoverable after blk := by
  obtain ⟨idle, free, -⟩ := act.exit
  cases queue : (s.heap.source t).queue with
  | cons blk rest =>
      have mine : blk ∈ s.holding t := by
        rw [holding_idle idle, free_eq free rfl]
        change blk ∈ (s.heap.source t).queue
        rw [queue]
        exact List.mem_cons_self
      obtain ⟨created, unused⟩ := (kept.placed.pool blk).mp ⟨.thread t, mine⟩
      have lonely (place : Place Thread) (here : blk ∈ s.blocks place) : place = .thread t :=
        kept.placed.apart place (.thread t) blk here mine
      refine ⟨blk, lost_of_exit act created (fun e here => ?_)
        (fun u apart => ⟨fun here => ?_, ?_⟩) ?_⟩
      · cases lonely (.entry e) here
      · cases lonely (.thread u) here
        exact apart rfl
      · intro owned
        have counts := kept.counted.owned u blk owned
        omega
      · have counts := kept.counted.refs_le blk
        omega
  | nil =>
      obtain ⟨blk, consumed, last⟩ : ∃ blk, (s.heap.source t).consume = some blk ∧
          s.heap.useCount blk = 1 := by
        by_contra none
        exact spoils fun _ => ⟨queue, fun blk consumed last => none ⟨blk, consumed, last⟩⟩
      have mine : s.heap.owner t = some blk := (owner_eq free rfl).trans consumed
      have counts := kept.counted.owned t blk mine
      have nowhere (place : Place Thread) (here : blk ∈ s.blocks place) : False := by
        have unused := ((kept.placed.pool blk).mp ⟨place, here⟩).2
        omega
      refine ⟨blk, lost_of_exit act (kept.known blk (by omega)) (fun e => nowhere (.entry e))
        (fun u apart => ⟨nowhere (.thread u), fun owned => ?_⟩) (by omega)⟩
      exact apart (kept.counted.sole u t blk owned mine)

end Kept

/-! ### The publications of a run -/

section Head

/-- Only a publication moves the head. -/
theorem head_move {ring next : Ring} {call after : Call} {action : RemoteSource.Action}
    (move : RemoteSource.Move ring call action next after) :
    (action ≠ .publish ∧ next.head = ring.head) ∨
      (action = .publish ∧ (∃ e, call.publishing = some e) ∧ next = ring.publish) := by
  cases move with
  | push move =>
      cases move with
      | publish => exact .inr ⟨rfl, ⟨_, rfl⟩, rfl⟩
      | _ => exact .inl ⟨nofun, rfl⟩
  | prepend move =>
      cases move with
      | publish => exact .inr ⟨rfl, ⟨_, rfl⟩, rfl⟩
      | _ => exact .inl ⟨nofun, rfl⟩
  | tryPop move =>
      cases move with
      | advance available expected =>
          rw [← expected]
          exact .inl ⟨nofun, advance_head ring⟩
      | _ => exact .inl ⟨nofun, rfl⟩

variable {Thread : Type} [DecidableEq Thread] {s after : State Thread} {t : Thread}
  {action : Action}

theorem Act.head (act : Act s t action after) (tidy : Tidy s (t, action)) :
    (action ≠ .ring .publish ∧ after.ring.head = s.ring.head) ∨
      (action = .ring .publish ∧ after.ring.head.toNat = s.ring.head.toNat + 1) := by
  have calls {call next : Call} {kind : RemoteSource.Action} {ring : Ring}
      (pc : (s.remote t).call = call) (move : RemoteSource.Move s.ring call kind ring next)
      (same : action = .ring kind) (here : after.ring = ring) :
      (action ≠ .ring .publish ∧ after.ring.head = s.ring.head) ∨
        (action = .ring .publish ∧ after.ring.head.toNat = s.ring.head.toNat + 1) := by
    rw [same, here]
    rcases head_move move with ⟨other, head⟩ | ⟨publish, ⟨e, publishing⟩, next⟩
    · refine .inl ⟨fun publishes => other ?_, head⟩
      cases publishes
      rfl
    · refine .inr ⟨congrArg _ publish, ?_⟩
      obtain ⟨_, _, short⟩ := (tidy.orderly kind same).publishes publish e
        ((congrArg Call.publishing pc).trans publishing)
      rw [next]
      exact (Ring.publish_counters short).1
  cases act with
  | tryPop pc move | prepend pc move | push pc move =>
      exact calls (by rw [pc]; rfl) move rfl rfl
  | _ => exact .inl ⟨nofun, rfl⟩

theorem short_of_lasting (reachable : ((system Thread).restrict Lasting).Reachable s) :
    s.ring.head.toNat + 2 < 2 ^ 32 := by
  refine reachable.invariant (fun s => s.ring.head.toNat + 2 < 2 ^ 32) ?_ ?_
  · rintro _ rfl
    change 0 + 2 < 2 ^ 32
    decide
  · rintro s ⟨t, action⟩ after _ short ⟨lasting, _, act⟩
    rcases act.head lasting.tidy with ⟨_, head⟩ | ⟨publish, head⟩
    · rw [head]
      exact short
    · rw [head]
      exact lasting.spare publish

/-- A tidy run that has not published too much is lasting. -/
theorem lasting_of_short (reachable : ((system Thread).restrict Tidy).Reachable s)
    (short : s.ring.head.toNat + 2 < 2 ^ 32) :
    ((system Thread).restrict Lasting).Reachable s := by
  induction reachable with
  | init start => exact .init start
  | @step s after label earlier step inductionHypothesis =>
      obtain ⟨t, action⟩ := label
      obtain ⟨tidy, running, act⟩ := step
      have lasts : Lasting s (t, action) ∧ s.ring.head.toNat + 2 < 2 ^ 32 := by
        rcases act.head tidy with ⟨other, head⟩ | ⟨_, head⟩
        · rw [head] at short
          exact ⟨⟨tidy, fun publish => absurd publish other⟩, short⟩
        · rw [head] at short
          exact ⟨⟨tidy, fun _ => short⟩, by omega⟩
      exact (inductionHypothesis lasts.2).step ⟨lasts.1, running, act⟩

end Head

/-! ### The pieces of a mapping -/

section Inside

variable {Thread : Type} [DecidableEq Thread] {s after : State Thread} {t : Thread}
  {action : Action}

/-- A call leaves the pieces of its mapping only where it reserves places. -/
theorem leaves_move {ring next : Ring} {call after : Call} {kind : RemoteSource.Action}
    (move : RemoteSource.Move ring call kind next after)
    (enough : kind = .reserve → ∀ ptr k e n, call = .prepend ptr k (.reserve e n) →
      n = T ∨ (0 < room n ∧ k + room n ≤ ptr.length)) (ptr : List Addr) (k : Nat) :
    after ≠ .prepend ptr k .outOfBounds ∧ after ≠ .prepend ptr k .misplaced := by
  cases move with
  | push move =>
      cases move with
      | link => constructor <;> split <;> nofun
      | _ => exact ⟨nofun, nofun⟩
  | tryPop move => cases move <;> exact ⟨nofun, nofun⟩
  | @prepend blks j pc _ _ _ move =>
      cases move with
      | @reserve e n expected =>
          rcases enough rfl blks j e n rfl with full | here
          · rw [if_pos full]
            exact ⟨nofun, nofun⟩
          · rw [if_pos here]
            constructor <;> split <;> nofun
      | retry => constructor <;> split <;> simp
      | publish =>
          unfold Call.prependFrom
          constructor <;> split <;> nofun
      | _ => exact ⟨nofun, nofun⟩

theorem Act.inside (act : Act s t action after) (spares : Spares s (t, action))
    (inside : Inside s) : Inside after := by
  intro u ptr k
  by_cases mine : u = t
  · subst mine
    cases act with
    | thread => exact inside u ptr k
    | mapFailed => exact inside u ptr k
    | store =>
        show Function.update _ _ _ _ ≠ _ ∧ Function.update _ _ _ _ ≠ _
        rw [Function.update_self]
        unfold Call.prependFrom
        constructor <;> split <;> nofun
    | @prepend call next kind ring pc move =>
        show Function.update _ _ _ _ ≠ _ ∧ Function.update _ _ _ _ ≠ _
        rw [Function.update_self]
        have stays := leaves_move move (fun reserves ptr k e n same =>
          spares.enough (congrArg Action.ring reserves) ptr k e n
            (pc.trans (congrArg Remote.prepend same))) ptr k
        exact ⟨fun same => stays.1 (Remote.prepend.inj same),
          fun same => stays.2 (Remote.prepend.inj same)⟩
    | _ =>
        show Function.update _ _ _ _ ≠ _ ∧ Function.update _ _ _ _ ≠ _
        rw [Function.update_self]
        exact ⟨nofun, nofun⟩
  · rw [(act.others u mine).1]
    exact inside u ptr k

/-- A call reserves places where the counter is what it read. -/
theorem Act.reserves (act : Act s t action after) {ptr : List Addr} {k e n : Nat}
    (pc : s.remote t = .prepend (.prepend ptr k (.reserve e n)))
    (reserves : action = .ring .reserve) : (s.ring.entry e).n = n := by
  subst reserves
  cases act with
  | tryPop here move | push here move => cases here.symm.trans pc
  | prepend here move =>
      cases here.symm.trans pc
      cases move with
      | prepend move =>
          cases move with
          | reserve expected => exact expected

theorem inside_of_spares (reachable : ((system Thread).restrict Spares).Reachable s) :
    Inside s := by
  refine reachable.invariant Inside ?_ ?_
  · rintro _ rfl t ptr k
    exact ⟨nofun, nofun⟩
  · rintro s ⟨t, action⟩ after _ inside ⟨spares, _, act⟩
    exact act.inside spares inside

/-- Runs that keep the pool in order lose no block. -/
theorem spares_of_tidy [Fintype Thread] (reachable : ((system Thread).restrict Tidy).Reachable s) :
    ((system Thread).restrict Spares).Reachable s := by
  induction reachable with
  | init start => exact .init start
  | @step s after label earlier step inductionHypothesis =>
      obtain ⟨t, action⟩ := label
      obtain ⟨tidy, running, act⟩ := step
      refine inductionHypothesis.step ⟨⟨tidy.exits, fun reserves ptr k e n pc => ?_⟩, running, act⟩
      have bounded := ((ordered_of_tidy earlier).ring.phase e).le
      have places := (tidy.orderly .reserve reserves).enough rfl ptr k e n
        (congrArg Remote.call pc)
      have current : (s.ring.entry e).n = n := act.reserves pc reserves
      by_cases full : n = T
      · exact .inl full
      · have below : n ≤ T := current ▸ bounded
        have some : 0 < room n := by
          rw [room_eq below]
          omega
        exact .inr ⟨some, places.resolve_left full⟩

/-- No block is lost while exits spare theirs and prepending calls have enough of them, and in
the runs that keep the pool in order the last thread can acquire all blocks again. -/
theorem conserved_of_spared [Fintype Thread]
    (reachable : ((system Thread).restrict Spares).Reachable s) :
    Conserved s ∧ Inside s ∧ (((system Thread).restrict Lasting).Reachable s → Recovers s) ∧
      ∀ t after, Act s t (.thread .exit) after →
        (Conserved after ↔ SparesExit s (t, .thread .exit)) := by
  have kept := kept_of_spared (reachable.weaken fun _ _ spares => spares.exits)
  refine ⟨conserved_of_kept kept, inside_of_spares reachable,
    fun lasting t alone blk created => ?_, fun t after act => ?_⟩
  · have tidy := lasting.weaken fun _ _ lasting => lasting.tidy
    exact alone.recovers tidy created (short_of_lasting lasting)
  · refine ⟨fun conserved => ?_, fun spares => conserved_of_kept (kept.step act spares)⟩
    by_contra spoils
    obtain ⟨blk, created, lost⟩ := exit_loses kept act spoils
    exact lost (conserved.recoverable blk created)

end Inside

/-! ### A thread that leaves -/

section Run

variable {Thread : Type} [DecidableEq Thread] {s mid : State Thread} {t : Thread} {ring : Ring}

theorem Path.prepend {next : Ring} {call after : Call} {action : RemoteSource.Action}
    (path : Path t s (mid.calling t ring (.prepend call)))
    (move : RemoteSource.Move ring call action next after)
    (tidy : Tidy (mid.calling t ring (.prepend call)) (t, .ring action)) :
    Path t s (mid.calling t next (.prepend after)) := by
  rw [← calling_go ring next (.prepend call)]
  exact path.go (.prepend (calling_remote _ _) move) tidy nofun nofun nofun

omit [DecidableEq Thread] in
theorem tidy_reserve_prepend {ptr : List Addr} {k e n : Nat}
    (pc : s.remote t = .prepend (.prepend ptr k (.reserve e n))) (enough : k + room n ≤ ptr.length)
    (here : e = slot s.ring.head) : Tidy s (t, .ring .reserve) := by
  have call : s.calls.call t = .prepend ptr k (.reserve e n) := congrArg Remote.call pc
  refine ⟨nofun, fun action same => ?_, fun _ f reserves => ?_, nofun⟩
  · cases same
    refine orderly_reserve (fun blk f m known => ?_) fun other l f m known => ?_
    · cases call.symm.trans known
    · cases call.symm.trans known
      exact .inr enough
  · rw [pc] at reserves
    cases reserves
    exact here

theorem path_prepend {ptr : List Addr} {k : Nat}
    (path : Path t s (mid.calling t ring (.prepend (.prepend ptr k .load))))
    (empty : (ring.entry (slot ring.head)).n = 0) (enough : k + T ≤ ptr.length)
    (short : ring.head.toNat + 1 < 2 ^ 32) :
    ∃ next, Path t s (mid.calling t next (.prepend (.prependFrom ptr (k + T)))) ∧
      next.head.toNat = ring.head.toNat + 1 ∧ next.tail = ring.tail ∧
      ∀ e, e ≠ slot ring.head → (next.entry e).n = (ring.entry e).n := by
  have loaded := path.prepend (.prepend .load) tidy_ring
  have seen := loaded.prepend (.prepend (.read (by rw [empty]; decide))) tidy_ring
  rw [empty] at seen
  have whole : room 0 = T := by decide
  have reserved := seen.prepend (.prepend (.reserve empty))
    (tidy_reserve_prepend (calling_remote _ _) (whole ▸ enough) rfl)
  rw [if_neg (by decide), if_pos (by rw [whole]; exact ⟨by decide, enough⟩)] at reserved
  have front := reserved.prepend (.prepend .front) tidy_ring
  have last := front.prepend (.prepend (.link rfl)) tidy_ring
  have published := last.prepend (.prepend .publish)
    (tidy_publish (by rw [calling_remote]; rfl) rfl last.lone.remote short)
  rw [whole] at published
  obtain ⟨head, tail⟩ := @Ring.publish_counters ((ring.setN (slot ring.head) T).setBlocks
    (slot ring.head) _) short
  refine ⟨_, published, head, tail, fun e apart => ?_⟩
  change (((ring.setN (slot ring.head) T).setBlocks (slot ring.head) _).entry e).n = _
  rw [setBlocks_n, setN_n, if_neg apart]

/-- The blocks of a mapping fill the first entries of an empty ring. -/
theorem path_prepends (path : Path t s s) {ptr : List Addr} (length : ptr.length = M)
    (pc : s.remote t = .prepend (.prependFrom ptr 0)) (empty : s.ring = {}) (count : Nat)
    (small : count ≤ 4) :
    ∃ next, Path t s (s.calling t next (.prepend (.prependFrom ptr (count * T)))) ∧
      next.head.toNat = count ∧ next.tail.toNat = 0 ∧
      ∀ e, count ≤ e → e < K → (next.entry e).n = 0 := by
  induction count with
  | zero =>
      refine ⟨s.ring, ?_, ?_, ?_, ?_⟩
      · have same : s.calling t s.ring (.prepend (.prependFrom ptr (0 * T))) = s := by
          unfold State.calling
          rw [Nat.zero_mul, ← pc, Function.update_eq_self]
        exact same.symm ▸ path
      · rw [empty]
        rfl
      · rw [empty]
        rfl
      · rw [empty]
        intro e _ _
        rfl
  | succ count inductionHypothesis =>
      obtain ⟨ring, path, head, tail, fresh⟩ := inductionHypothesis (Nat.le_of_succ_le small)
      have sizes : M = 64 ∧ T = 16 ∧ K = 64 := ⟨rfl, rfl, rfl⟩
      have here : slot ring.head = count := by
        rw [slot_eq, head]
        exact Nat.mod_eq_of_lt (by omega)
      have enough : count * T + T ≤ ptr.length := by
        rw [length, ← Nat.succ_mul]
        exact Nat.mul_le_mul_right T small
      have more : ptr.drop (count * T) ≠ [] := by
        rw [ne_eq, List.drop_eq_nil_iff]
        omega
      rw [Call.prependFrom, if_neg more] at path
      obtain ⟨next, path, after, still, others⟩ := path_prepend path
        (here.symm ▸ fresh count (Nat.le_refl _) (by omega)) enough (by omega)
      refine ⟨next, ?_, by omega, by rw [still, tail], fun e above below => ?_⟩
      · rw [Nat.succ_mul]
        exact path
      · rw [others e (by omega)]
        exact fresh e (by omega) below

end Run

theorem stored_reachable : ∃ s : State Unit, ((system Unit).restrict Tidy).Reachable s ∧
    s.remote () = .prepend (.prependFrom (blocksOf 4096) 0) ∧ s.heap.pc () = .popping 4096 ∧
    s.heap.source () = {} ∧ s.heap.live = [] ∧ s.ring = {} ∧ s.terminated = false ∧
    s.mapped = [4096] := by
  have start : ((system Unit).restrict Tidy).Reachable {} := .init rfl
  have whole : 1 ≤ 4096 := by decide
  have entered := reachable_act start rfl
    (.thread (t := ()) rfl (.inl rfl) (.acquire rfl whole (Nat.le_refl 4096))) (tidy_thread nofun)
  have called := reachable_act entered rfl (.beginPop (t := ()) rfl rfl) tidy_other
  have allocating := reachable_allocate (t := ()) (fun _ => tidy_ring) (fun _ => tidy_other)
    spinThreshold (Nat.zero_add _) called rfl rfl rfl
  have mapped := reachable_act allocating rfl
    (.map (t := ()) (p := 4096) rfl ⟨by decide, by decide, nofun⟩)
    ⟨nofun, nofun, nofun, fun _ => Nat.zero_lt_succ _⟩
  have claimed := reachable_act mapped rfl (.claim (t := ()) rfl) tidy_other
  have stored := reachable_act claimed rfl (.store (t := ()) rfl) tidy_other
  exact ⟨_, stored, rfl, rfl, rfl, rfl, rfl, rfl, rfl⟩

theorem released_reachable : ∃ s : State Unit, ((system Unit).restrict Tidy).Reachable s ∧
    Alone () s ∧ s.remote () = .idle ∧ s.mapped = [4096] ∧ s.ring.head.toNat = 4 ∧
    (s.heap.source ()).queue ≠ [] ∧ ∃ blk, (s.heap.source ()).consume = some blk := by
  obtain ⟨s, reachable, remote, pc, source, live, ring, running, mapped⟩ := stored_reachable
  have lone : Lone () s := by
    have nobody (u : Unit) (apart : u ≠ ()) : False := apart rfl
    exact ⟨running, fun u apart => (nobody u apart).elim, fun u apart => (nobody u apart).elim,
      fun u apart => (nobody u apart).elim⟩
  have begun : Path () s s := ⟨reachable, lone, .refl, rfl⟩
  obtain ⟨ring, path, head, tail, _⟩ :=
    path_prepends begun (blocksOf_length 4096) remote ring 4 (Nat.le_refl 4)
  have all : Call.prependFrom (blocksOf 4096) (4 * T) = .returned [] := by
    refine if_pos (List.drop_eq_nil_iff.mpr ?_)
    rw [blocksOf_length]
    decide
  rw [all] at path
  have popping := path.go (.prepended (calling_remote _ _)) tidy_other nofun nofun nofun
  rw [show (s.calling () ring (.prepend (.returned []))).go () (.pop 0 (.tryPop .load)) =
    s.calling () ring (.pop 0 (.tryPop .load)) from calling_go ring ring _ _] at popping
  obtain ⟨next, batch, emptied, arrives⟩ := path_pop popping pc (by omega)
  cases batch with
  | nil => cases emptied.length
  | cons blk rest =>
      obtain ⟨x, same, arrives⟩ := (arrives.consume rfl rfl).take rfl rfl
      obtain ⟨after, path, idle, view⟩ :=
        arrives.releaseOwned rfl List.mem_cons_self (congrArg some same.symm)
      refine ⟨after, path.reachable, ⟨path.lone.running, fun u apart => absurd rfl apart,
        congrArg View.pc view, ?_⟩, idle, path.mapped.trans mapped, ?_, ?_, blk,
        congrArg View.consume view⟩
      · refine (congrArg View.live view).trans ?_
        change (x :: s.heap.live).erase x = []
        rw [List.erase_cons_head, live]
      · refine (congrArg (fun view => view.ring.head.toNat) view).trans ?_
        change next.head.toNat = 4
        rw [emptied.head, head]
      · intro empty
        have rest : rest = [] := (congrArg View.queue view).symm.trans empty
        have length := emptied.length
        rw [rest] at length
        cases length

/-- All blocks of a mapping, one of which has been used. -/
theorem conserved_released : ∃ s : State Unit, ((system Unit).restrict Spares).Reachable s ∧
    Alone () s ∧ (∃ blk, s.Created blk) ∧ Conserved s ∧ Recovers s := by
  obtain ⟨s, tidy, alone, idle, mapped, head, _⟩ := released_reachable
  have lasting := lasting_of_short tidy (by rw [head]; decide)
  have spared := spares_of_tidy tidy
  obtain ⟨conserved, _, recovers, _⟩ := conserved_of_spared spared
  refine ⟨s, spared, alone, ⟨4096 + 4096, 4096, ?_, ?_, fun u => ?_⟩, conserved, recovers lasting⟩
  · rw [mapped]
    exact List.mem_singleton_self _
  · exact mem_blocksOf.mpr ⟨0, by decide, rfl⟩
  · rw [show s.remote u = .idle from idle]
    nofun

/-- The thread exits with the rest of its batch. -/
theorem lost_at_exit : ¬ ∀ s : State Unit, (system Unit).Reachable s →
    ∀ blk, s.Created blk → Recoverable s blk := by
  intro every
  obtain ⟨s, tidy, alone, idle, _, _, queue, blk, owned⟩ := released_reachable
  have act : Act s () (.thread .exit) _ := .thread idle (.inr rfl) (.exitOwner alone.idle owned)
  obtain ⟨lost, created, gone⟩ := exit_loses (kept_of_tidy tidy) act fun spares =>
    queue (spares rfl).1
  exact gone (every _ (tidy.of_restrict.step (show Step s ((), .thread .exit) _ from
    ⟨alone.running, act⟩)) lost created)

end NgrCore.MemoryResource
