import NgrCore.MemoryResource.Batches

/-!
Owns what one thread does with the pool once the others have left: an acquire, a release and a
push that run to their end, without `_M_allocate`.
-/

namespace NgrCore.MemoryResource

open NgrCore.RemoteSource
open NgrCore.LocalSource (Move Pc Source Subrange owner_eq free_eq liveOf_pos)

section Definitions

variable {Thread : Type}

/-- A thread at some point of a call to the ring. -/
def State.calling [DecidableEq Thread] (s : State Thread) (t : Thread) (ring : Ring)
    (remote : Remote) : State Thread :=
  { s with ring, remote := Function.update s.remote t remote }

/-- What a thread that is not in the remote source has and sees. -/
structure View where
  pc : Pc
  queue : List Addr
  consume : Option Addr
  bump : Nat
  live : List Subrange
  ring : Ring

def State.view (s : State Thread) (t : Thread) : View where
  pc := s.heap.pc t
  queue := (s.heap.source t).queue
  consume := (s.heap.source t).consume
  bump := (s.heap.source t).bump
  live := s.heap.live
  ring := s.ring

/-- The program runs, and no other thread has anything to do with the pool. -/
structure Lone (t : Thread) (s : State Thread) : Prop where
  running : s.terminated = false
  remote : ∀ u, u ≠ t → s.remote u = .idle
  free : ∀ u, u ≠ t → s.heap.free u = []
  owner : ∀ u, u ≠ t → s.heap.owner u = none

variable [DecidableEq Thread]

/-- A step of one thread that does not enter `_M_allocate`. -/
def SoloStep (t : Thread) (s after : State Thread) : Prop :=
  ∃ action, Step s (t, action) after ∧ after.remote t ≠ .allocate

/-- Steps of one thread that do not enter `_M_allocate`. -/
def Solo (t : Thread) : State Thread → State Thread → Prop := Relation.ReflTransGen (SoloStep t)

/-- Such a run, with no mapping, that keeps the pool in order. -/
structure Path (t : Thread) (s after : State Thread) : Prop where
  reachable : ((system Thread).restrict Tidy).Reachable after
  lone : Lone t after
  run : Solo t s after
  mapped : after.mapped = s.mapped

/-- The thread can get to the view from the state. -/
def Arrives (t : Thread) (s : State Thread) (view : View) : Prop :=
  ∃ after, Path t s after ∧ after.remote t = .idle ∧ after.view t = view

end Definitions

section Paths

section Tidy

variable {Thread : Type} {s : State Thread} {t : Thread}

theorem tidy_other : Tidy s (t, .other) :=
  ⟨nofun, nofun, nofun, nofun⟩

theorem tidy_thread {own : LocalSource.Action} (stays : own ≠ .exit) :
    Tidy s (t, .thread own) := by
  refine ⟨fun exits => ?_, nofun, nofun, nofun⟩
  cases exits
  exact absurd rfl stays

theorem tidy_ring : Tidy s (t, .ring .other) := by
  refine ⟨nofun, fun action same => ?_, nofun, nofun⟩
  cases same
  exact orderly_other

theorem tidy_reserve {blk : Addr} {e n : Nat} (pc : s.remote t = .push (.push blk (.reserve e n)))
    (below : n ≠ T) (here : e = slot s.ring.head) : Tidy s (t, .ring .reserve) := by
  have call : s.calls.call t = .push blk (.reserve e n) := congrArg Remote.call pc
  refine ⟨nofun, fun action same => ?_, fun _ f reserves => ?_, nofun⟩
  · cases same
    refine orderly_reserve (fun other f m known => ?_) fun ptr k f m known => ?_
    · cases call.symm.trans known
      exact below
    · cases call.symm.trans known
  · rw [pc] at reserves
    cases reserves
    exact here

theorem tidy_publish {e : Nat} (publishing : (s.remote t).call.publishing = some e)
    (here : e = slot s.ring.head) (alone : ∀ u, u ≠ t → s.remote u = .idle)
    (short : s.ring.head.toNat + 1 < 2 ^ 32) : Tidy s (t, .ring .publish) := by
  refine ⟨nofun, fun action same => ?_, nofun, nofun⟩
  cases same
  refine orderly_publish fun f publishes => ?_
  have same : e = f := Option.some.inj (publishing.symm.trans publishes)
  refine ⟨same ▸ here, fun u apart => ?_, short⟩
  change ((s.remote u).call.role f).pending = 0
  rw [alone u apart]
  rfl

end Tidy

variable {Thread : Type} [DecidableEq Thread] {s mid after : State Thread} {t : Thread}
  {action : Action}

theorem Act.others (act : Act s t action after) (u : Thread) (apart : u ≠ t) :
    after.remote u = s.remote u ∧ after.heap.pc u = s.heap.pc u ∧
      after.heap.source u = s.heap.source u := by
  cases act with
  | thread idle own move => exact ⟨rfl, move.others u apart⟩
  | refill pc some move | pushed pc move =>
      exact ⟨Function.update_of_ne apart _ _, move.others u apart⟩
  | mapFailed => exact ⟨rfl, rfl, rfl⟩
  | beginPop | tryPop | spin | giveUp | map | claim | store | prepend | prepended | beginPush
  | push => exact ⟨Function.update_of_ne apart _ _, rfl, rfl⟩

theorem Act.running (act : Act s t action after) (maps : action ≠ .map)
    (fails : action ≠ .mapFailed) : after.terminated = s.terminated ∧ after.mapped = s.mapped := by
  cases act with
  | map => exact absurd rfl maps
  | mapFailed => exact absurd rfl fails
  | _ => exact ⟨rfl, rfl⟩

theorem Path.step (path : Path t s mid) (act : Act mid t action after)
    (tidy : Tidy mid (t, action)) (maps : action ≠ .map) (fails : action ≠ .mapFailed)
    (stays : after.remote t ≠ .allocate) : Path t s after := by
  obtain ⟨running, mapped⟩ := act.running maps fails
  have step : Step mid (t, action) after := ⟨path.lone.running, act⟩
  refine ⟨path.reachable.step (show ((system Thread).restrict Tidy).Step mid (t, action) after from
      ⟨tidy, step⟩), ?_, path.run.tail ⟨action, step, stays⟩, mapped.trans path.mapped⟩
  refine ⟨running.trans path.lone.running, fun u apart => ?_, fun u apart => ?_, fun u apart => ?_⟩
  · exact (act.others u apart).1.trans (path.lone.remote u apart)
  · exact (free_eq (act.others u apart).2.1 (act.others u apart).2.2).trans
      (path.lone.free u apart)
  · exact (owner_eq (act.others u apart).2.1 (act.others u apart).2.2).trans
      (path.lone.owner u apart)

theorem Path.go {next : State Thread} {remote : Remote} (path : Path t s mid)
    (act : Act mid t action (next.go t remote)) (tidy : Tidy mid (t, action))
    (maps : action ≠ .map) (fails : action ≠ .mapFailed) (stays : remote ≠ .allocate) :
    Path t s (next.go t remote) :=
  path.step act tidy maps fails fun here => stays ((Function.update_self _ _ _).symm.trans here)

theorem Path.thread {heap : LocalSource.State Thread} (path : Path t s mid)
    (idle : mid.remote t = .idle) (move : Move mid.heap t .quiet heap) :
    Path t s { mid with heap } := by
  refine path.step (.thread idle (.inl rfl) move) (tidy_thread nofun) nofun nofun fun here => ?_
  cases idle.symm.trans here

end Paths

/-! ### The ring -/

section Ring

variable {Thread : Type} [DecidableEq Thread] {s mid : State Thread} {t : Thread}
  {ring next : Ring} {call after : Call} {action : RemoteSource.Action} {blk : Addr}

theorem Lone.quiet (lone : Lone t s) (idle : s.remote t = .idle) : s.calls.Quiet := by
  intro u
  refine ⟨[], ?_⟩
  change (s.remote u).call = _
  by_cases mine : u = t
  · rw [mine, idle]
    rfl
  · rw [lone.remote u mine]
    rfl

theorem calling_remote (ring : Ring) (remote : Remote) :
    (mid.calling t ring remote).remote t = remote :=
  Function.update_self _ _ _

theorem calling_go (ring next : Ring) (remote other : Remote) :
    { mid.calling t ring remote with ring := next }.go t other = mid.calling t next other := by
  simp [State.calling, State.go]

theorem Path.push (path : Path t s (mid.calling t ring (.push call)))
    (move : RemoteSource.Move ring call action next after)
    (tidy : Tidy (mid.calling t ring (.push call)) (t, .ring action)) :
    Path t s (mid.calling t next (.push after)) := by
  rw [← calling_go ring next (.push call)]
  exact path.go (.push (calling_remote _ _) move) tidy nofun nofun nofun

theorem Path.pop (path : Path t s (mid.calling t ring (.pop 0 call)))
    (move : RemoteSource.Move ring call .other next after) :
    Path t s (mid.calling t next (.pop 0 after)) := by
  rw [← calling_go ring next (.pop 0 call)]
  exact path.go (.tryPop (calling_remote _ _) move) tidy_ring nofun nofun nofun

/-- What `_M_push` does to the ring. -/
structure Pushed (blk : Addr) (ring next : Ring) : Prop where
  tail : next.tail = ring.tail
  head : next.head = ring.head ∨ next.head.toNat = ring.head.toNat + 1
  here : (next.entry (slot ring.head)).blocks = blk :: (ring.entry (slot ring.head)).blocks
  others : ∀ e, e ≠ slot ring.head → (next.entry e).blocks = (ring.entry e).blocks

/-- The block is linked into the entry. -/
def linked (ring : Ring) (blk : Addr) (e : Nat) : Ring :=
  let ring := ring.setN e (((ring.entry e).n + 1) % 2 ^ 64)
  ring.setBlocks e (blk :: (ring.entry e).blocks)

theorem linked_self (ring : Ring) (blk : Addr) (e : Nat) :
    ((linked ring blk e).entry e).blocks = blk :: (ring.entry e).blocks :=
  (setBlocks_self _ _ _).trans (congrArg (blk :: ·) (setN_blocks _ _ _ _))

theorem linked_of_ne (ring : Ring) (blk : Addr) {e f : Nat} (apart : f ≠ e) :
    ((linked ring blk e).entry f).blocks = (ring.entry f).blocks :=
  (setBlocks_of_ne _ _ apart).trans (setN_blocks _ _ _ _)

theorem push_begins (path : Path t s mid) {resume : Option Nat}
    (pc : mid.heap.pc t = .giving blk resume) (idle : mid.remote t = .idle) {e n : Nat}
    (here : slot mid.ring.head = e) (counter : (mid.ring.entry e).n = n) (below : n ≠ T) :
    Path t s (mid.calling t (linked mid.ring blk e)
      (.push (if (n + 1) % 2 ^ 64 = T then .push blk (.publish e) else .returned []))) := by
  have begun : Path t s (mid.calling t mid.ring (.push (.push blk .load))) :=
    path.go (.beginPush pc idle) tidy_other nofun nofun nofun
  have loaded := begun.push (.push .load) tidy_ring
  rw [here] at loaded
  have seen := loaded.push (.push (.read (counter ▸ below))) tidy_ring
  rw [counter] at seen
  have reserved := seen.push (.push (.reserve counter))
    (tidy_reserve (calling_remote _ _) below here.symm)
  have front := reserved.push (.push .front) tidy_ring
  have last := front.push (.push (.link rfl)) tidy_ring
  rw [← counter] at last ⊢
  exact last

variable {view : View}

theorem push_returns (path : Path t s (mid.calling t ring (.push (.returned []))))
    {resume : Option Nat} (pc : mid.heap.pc t = .giving blk resume) :
    Arrives t s { mid.view t with
      pc := ({ queue := (mid.view t).queue } : Source).resume resume
      ring } := by
  refine ⟨_, path.go (.pushed (calling_remote _ _) (.give pc)) (tidy_thread nofun) nofun
    nofun nofun, Function.update_self _ _ _, ?_⟩
  have resumes : ((mid.heap.source t).resume resume) =
      ({ queue := (mid.heap.source t).queue } : Source).resume resume := by
    cases resume with
    | none => rfl
    | some n => rfl
  have here : (mid.heap.go t ((mid.heap.source t).resume resume)).pc t =
      (mid.heap.source t).resume resume := Function.update_self _ _ _
  exact congrArg (fun pc => { mid.view t with pc, ring }) (here.trans resumes)

theorem Arrives.push [Fintype Thread] (arrives : Arrives t s view) {resume : Option Nat}
    (pc : view.pc = .giving blk resume) (room : view.ring.head.toNat - view.ring.tail.toNat < K)
    (short : view.ring.head.toNat + 1 < 2 ^ 32) :
    ∃ next, Pushed blk view.ring next ∧
      Arrives t s { view with
        pc := ({ queue := view.queue } : Source).resume resume
        ring := next } := by
  obtain ⟨mid, path, idle, rfl⟩ := arrives
  have below := ((ordered_of_tidy path.reachable).ring.exact.atHead (path.lone.quiet idle) room).1
  change (mid.ring.entry (slot mid.ring.head)).n < T at below
  have begun := push_begins path pc idle rfl rfl below.ne
  split at begun
  next last =>
    have published := begun.push (.push .publish)
      (tidy_publish (by rw [calling_remote]; rfl) rfl begun.lone.remote short)
    obtain ⟨head, tail⟩ := @Ring.publish_counters (linked mid.ring blk _) short
    refine ⟨_, ⟨tail, .inr head, ?_, fun e apart => ?_⟩, push_returns published pc⟩
    · exact linked_self _ _ _
    · exact linked_of_ne _ _ apart
  next more =>
    refine ⟨linked mid.ring blk _, ⟨rfl, .inl rfl, ?_, fun e apart => ?_⟩, push_returns begun pc⟩
    · exact linked_self _ _ _
    · exact linked_of_ne _ _ apart

/-- What the pop of a batch does to the ring. -/
structure Emptied (ring next : Ring) (batch : List Addr) : Prop where
  length : batch.length = T
  head : next.head = ring.head
  tail : next.tail.toNat = ring.tail.toNat + 1
  perm : batch.Perm (ring.entry (slot ring.tail)).blocks
  others : ∀ e, e ≠ slot ring.tail → (next.entry e).blocks = (ring.entry e).blocks

/-- The ring after `_M_try_pop_swap_reversed`. -/
def popRing (ring : Ring) (word : BitVec 64) (e : Nat) : Ring :=
  { (({ ring with state := word }).setBlocks e []).setN e 0 with
    popped := ring.popped ++ [(ring.entry e).blocks.reverse] }

theorem popRing_head (ring : Ring) (word : BitVec 64) (e : Nat) :
    (popRing ring word e).head = ({ ring with state := word }).head := rfl

theorem popRing_tail (ring : Ring) (word : BitVec 64) (e : Nat) :
    (popRing ring word e).tail = ({ ring with state := word }).tail := rfl

theorem popRing_of_ne (ring : Ring) (word : BitVec 64) {e f : Nat} (apart : f ≠ e) :
    ((popRing ring word e).entry f).blocks = (ring.entry f).blocks :=
  (setN_blocks _ _ _ _).trans (setBlocks_of_ne _ _ apart)

theorem path_tryPop {e : Nat} {word : BitVec 64}
    (path : Path t s (mid.calling t ring (.pop 0 (.tryPop .load))))
    (here : slot ring.tail = e) (adds : ring.state + tailStride = word)
    (available : (convert ring.state).head ≠ (convert ring.state).tail) :
    Path t s (mid.calling t (popRing ring word e)
      (.pop 0 (.returned (ring.entry e).blocks.reverse))) := by
  have loaded := path.pop (.tryPop .load)
  have advanced := loaded.pop (.tryPop (.advance available rfl))
  rw [show slot (convert ring.state).tail = e from here, adds] at advanced
  have found := advanced.pop (.tryPop .take)
  have detached := found.pop (.tryPop (.detach rfl))
  exact detached.pop (.tryPop .reset)

theorem pop_returns {n : Nat} {batch : List Addr}
    (path : Path t s (mid.calling t ring (.pop 0 (.returned batch))))
    (pc : mid.heap.pc t = .popping n) (some : batch ≠ [])
    (empty : (mid.heap.source t).queue = []) :
    Arrives t s { mid.view t with pc := .consume n, queue := batch, ring } := by
  refine ⟨_, path.go (.refill (calling_remote _ _) some (.refill pc some))
    (tidy_thread nofun) nofun nofun nofun, Function.update_self _ _ _, ?_⟩
  simp [State.view, State.go, State.calling, LocalSource.State.go, LocalSource.State.setSource,
    empty]

/-- The loop of `_M_pop_swap_reversed` when a batch is available. -/
theorem path_pop [Fintype Thread] {n : Nat}
    (path : Path t s (mid.calling t ring (.pop 0 (.tryPop .load))))
    (pc : mid.heap.pc t = .popping n) (some : ring.tail.toNat < ring.head.toNat) :
    ∃ next batch, Emptied ring next batch ∧
      Arrives t s { mid.view t with pc := .consume n, queue := batch, ring := next } := by
  have ordered := ordered_of_tidy path.reachable
  have length : (ring.entry (slot ring.tail)).blocks.length = T := by
    have here : Available ring (slot ring.tail) :=
      ⟨ring.tail.toNat, Nat.le_refl _, some, (slot_eq _).symm⟩
    cases ordered.ring.phase (slot ring.tail) with
    | full _ full => exact full.batch
    | popping gone | filling gone => exact absurd here gone
  have available : (convert ring.state).head ≠ (convert ring.state).tail :=
    fun same => Nat.ne_of_gt some (congrArg BitVec.toNat same)
  obtain ⟨head, tail⟩ := Ring.advance_counters some
  have popped := path_tryPop path rfl rfl available
  -- The sum is not to be evaluated in what follows.
  generalize ring.state + tailStride = word at popped head tail
  have reversed : (ring.entry (slot ring.tail)).blocks.reverse.length = T := by
    rw [List.length_reverse, length]
  have emptied : Emptied ring (popRing ring word (slot ring.tail))
      (ring.entry (slot ring.tail)).blocks.reverse :=
    ⟨reversed, (popRing_head _ _ _).trans head, by rw [popRing_tail, tail], List.reverse_perm _,
      fun e apart => popRing_of_ne _ _ apart⟩
  refine ⟨_, _, emptied, pop_returns popped pc ?_ ((ordered.stocked t).empty n pc)⟩
  intro empty
  rw [empty] at reversed
  cases reversed

theorem Arrives.pop [Fintype Thread] (arrives : Arrives t s view) {n : Nat}
    (pc : view.pc = .popping n) (some : view.ring.tail.toNat < view.ring.head.toNat) :
    ∃ next batch, Emptied view.ring next batch ∧
      Arrives t s { view with pc := .consume n, queue := batch, ring := next } := by
  obtain ⟨mid, path, idle, rfl⟩ := arrives
  have begun : Path t s (mid.calling t mid.ring (.pop 0 (.tryPop .load))) :=
    path.go (.beginPop pc idle) tidy_other nofun nofun nofun
  exact path_pop begun pc some

end Ring

/-! ### The local source -/

section Local

variable {Thread : Type} [DecidableEq Thread] {s : State Thread} {t : Thread} {view : View}
  {blk : Addr}

theorem Arrives.enter [Fintype Thread] (arrives : Arrives t s view) (idle : view.pc = .idle) :
    (view.consume = none ∧ Arrives t s { view with
      pc := ({ queue := view.queue } : Source).proceed 4096 }) ∨
    ∃ blk, view.consume = some blk ∧
      ((view.bump = 0 ∧ Arrives t s { view with pc := .take 4096 }) ∨
        Arrives t s { view with pc := .drop 4096 }) := by
  obtain ⟨mid, path, outside, rfl⟩ := arrives
  have entered : Arrives t s { mid.view t with pc := (mid.heap.source t).enter 4096 } := by
    have whole : 1 ≤ 4096 := by decide
    refine ⟨_, path.thread outside (.acquire idle whole (Nat.le_refl 4096)), outside, ?_⟩
    exact congrArg (fun pc : Pc => { mid.view t with pc }) (Function.update_self t _ mid.heap.pc)
  have stocked := (ordered_of_tidy path.reachable).stocked t
  unfold Source.enter at entered
  cases owned : (mid.heap.source t).consume with
  | none =>
      rw [stocked.fresh owned, if_neg (by decide), if_pos owned] at entered
      exact .inl ⟨owned, entered⟩
  | some blk =>
      refine .inr ⟨blk, owned, ?_⟩
      split at entered
      next fits =>
        have zero : (mid.heap.source t).bump = 0 := by omega
        exact .inl ⟨zero, entered⟩
      next =>
        rw [owned, if_neg nofun] at entered
        exact .inr entered

theorem Arrives.take (arrives : Arrives t s view) {n : Nat} (pc : view.pc = .take n)
    (owned : view.consume = some blk) :
    ∃ x : Subrange, x.source = blk ∧ Arrives t s { view with
      pc := .idle
      bump := view.bump + n
      live := x :: view.live } := by
  obtain ⟨mid, path, outside, rfl⟩ := arrives
  refine ⟨⟨blk, (mid.heap.source t).bump, n⟩, rfl, ?_⟩
  refine ⟨_, path.thread outside (.take pc owned), outside, ?_⟩
  simp [State.view, LocalSource.State.acquired, LocalSource.State.go, LocalSource.State.setSource,
    LocalSource.State.addUse]

theorem Arrives.consume (arrives : Arrives t s view) {n : Nat} {rest : List Addr}
    (pc : view.pc = .consume n) (queue : view.queue = blk :: rest) :
    Arrives t s { view with pc := .take n, queue := rest, consume := some blk, bump := 0 } := by
  obtain ⟨mid, path, outside, rfl⟩ := arrives
  refine ⟨_, path.thread outside (.consume pc queue), outside, ?_⟩
  simp [State.view, LocalSource.State.go, LocalSource.State.setSource, LocalSource.State.addUse]

theorem Arrives.drop (arrives : Arrives t s view) {n : Nat} (pc : view.pc = .drop n)
    (owned : view.consume = some blk) (held : ∃ x ∈ view.live, x.source = blk) :
    Arrives t s { view with pc := ({ queue := view.queue } : Source).proceed n } := by
  obtain ⟨mid, path, outside, rfl⟩ := arrives
  obtain ⟨x, member, rfl⟩ := held
  have owner : mid.heap.owner t = some x.source := (owner_eq pc rfl).trans owned
  have counts := (kept_of_tidy path.reachable).counted.owned t _ owner
  have some := liveOf_pos (s := mid.heap) member
  refine ⟨_, path.thread outside (.drop pc owned (by omega)), outside, ?_⟩
  exact congrArg (fun pc : Pc => { mid.view t with pc }) (Function.update_self t _ mid.heap.pc)

/-- `_M_release` while there is room in the queue, and when there is none. -/
theorem view_recycle (heap : LocalSource.State Thread) (blk : Addr) {pc : Pc}
    (stocked : Stocked pc (heap.source t)) (resume : Option Nat) :
    let view := { s with heap }.view t
    (view.queue.length < T ∧ { s with heap := heap.recycle t blk resume }.view t = { view with
      pc := ({ queue := blk :: view.queue } : Source).resume resume
      queue := blk :: view.queue }) ∨
    (¬ view.queue.length < T ∧
      { s with heap := heap.recycle t blk resume }.view t =
        { view with pc := .giving blk resume }) := by
  intro view
  unfold LocalSource.State.recycle
  by_cases below : view.queue.length < T
  · refine .inl ⟨below, ?_⟩
    rw [if_pos (stocked.count_lt.mpr below)]
    cases resume with
    | none =>
        simp [State.view, LocalSource.State.go, LocalSource.State.setSource, view, Source.resume]
    | some n =>
        simp [State.view, LocalSource.State.go, LocalSource.State.setSource, view, Source.resume,
          Source.proceed]
  · refine .inr ⟨below, ?_⟩
    rw [if_neg (mt stocked.count_lt.mp below)]
    simp [State.view, LocalSource.State.go, view]

/-- A subrange of the block that the thread consumes is released. -/
theorem Arrives.releaseOwned (arrives : Arrives t s view) {x : Subrange} (idle : view.pc = .idle)
    (held : x ∈ view.live) (owned : view.consume = some x.source) :
    Arrives t s { view with live := view.live.erase x } := by
  obtain ⟨mid, path, outside, rfl⟩ := arrives
  have owner : mid.heap.owner t = some x.source := (owner_eq idle rfl).trans owned
  have counts := (kept_of_tidy path.reachable).counted.owned t _ owner
  have some := liveOf_pos (s := mid.heap) held
  exact ⟨_, path.thread outside (.release idle held (by omega)), outside, rfl⟩

theorem Arrives.dropLast [Fintype Thread] (arrives : Arrives t s view) {n : Nat}
    (pc : view.pc = .drop n) (owned : view.consume = some blk)
    (last : ∀ x ∈ view.live, x.source ≠ blk) :
    Arrives t s { view with pc := .consume n, queue := blk :: view.queue } ∨
      T ≤ view.queue.length ∧ Arrives t s { view with pc := .giving blk (some n) } := by
  obtain ⟨mid, path, outside, rfl⟩ := arrives
  have owner : mid.heap.owner t = some blk := (owner_eq pc rfl).trans owned
  have counts := (kept_of_tidy path.reachable).counted.owned t _ owner
  have none : mid.heap.liveOf blk = 0 := by
    refine List.countP_eq_zero.mpr fun x member => ?_
    simpa using last x member
  have once : mid.heap.useCount blk = 1 := by
    rw [counts, none]
    rfl
  have stocked := (ordered_of_tidy path.reachable).stocked t
  have moved := path.thread outside (.dropLast pc owned once)
  rcases view_recycle (s := mid) (mid.heap.addUse blk (-1)) blk stocked (some n) with
    ⟨_, same⟩ | ⟨above, same⟩
  · exact .inl ⟨_, moved, outside, same⟩
  · exact .inr ⟨Nat.not_lt.mp above, _, moved, outside, same⟩

theorem Arrives.release [Fintype Thread] (arrives : Arrives t s view) {x : Subrange}
    (idle : view.pc = .idle) (held : x ∈ view.live) :
    let live := view.live.erase x
    Arrives t s { view with live } ∨
      Arrives t s { view with live, pc := .idle, queue := x.source :: view.queue } ∨
      Arrives t s { view with live, pc := .giving x.source none } := by
  intro live
  obtain ⟨mid, path, outside, rfl⟩ := arrives
  by_cases last : mid.heap.useCount x.source = 1
  · have stocked := (ordered_of_tidy path.reachable).stocked t
    have moved := path.thread outside (.releaseLast idle held last)
    rcases view_recycle (s := mid) ({ mid.heap with live := live }.addUse x.source (-1)) x.source
      stocked none with
      ⟨_, same⟩ | ⟨_, same⟩
    · exact .inr (.inl ⟨_, moved, outside, same⟩)
    · exact .inr (.inr ⟨_, moved, outside, same⟩)
  · exact .inl ⟨_, path.thread outside (.release idle held last), outside, rfl⟩

end Local

end NgrCore.MemoryResource
