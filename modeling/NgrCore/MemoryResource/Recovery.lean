import NgrCore.MemoryResource.Alone

/-!
Owns the way back of the blocks to a thread that is left alone: it takes what the ring has
published, and then gives its blocks back until the entry at head is published too.
-/

namespace NgrCore.MemoryResource

open NgrCore.RemoteSource
open NgrCore.LocalSource (Pc Source Subrange owner_eq free_eq)

section Definitions

/-- The thread has a subrange of the block it consumes. -/
structure Ready (view : View) : Prop where
  idle : view.pc = .idle
  spent : 0 < view.bump
  held : ∃ x ∈ view.live, view.consume = some x.source

/-- The thread has a subrange of the block, or gets it without a publication. -/
def Obtainable (blk : Addr) (view : View) : Prop :=
  (∃ x ∈ view.live, x.source = blk) ∨ blk ∈ view.queue ∨
    ∃ p, view.ring.tail.toNat ≤ p ∧ p < view.ring.head.toNat ∧
      blk ∈ (view.ring.entry (p % K)).blocks

/-- The thread has consumed one more block. -/
structure Consumed (n : Nat) (view next : View) : Prop where
  idle : next.pc = .idle
  bump : next.bump = n
  head : next.ring.head = view.ring.head
  taken : ∃ x, next.live = x :: view.live ∧ next.consume = some x.source ∧
    ((view.queue = x.source :: next.queue ∧ next.ring = view.ring) ∨
      (view.queue = [] ∧ view.ring.tail.toNat < view.ring.head.toNat ∧
        Emptied view.ring next.ring (x.source :: next.queue)))

/-- What is left to consume. -/
def View.left (view : View) : Nat :=
  view.queue.length + (T + 1) * (view.ring.head.toNat - view.ring.tail.toNat)

variable {Thread : Type}

/-- All other threads have exited, the thread is in no call, and no subrange is live. -/
structure Alone (t : Thread) (s : State Thread) : Prop where
  running : s.terminated = false
  exited : ∀ u, u ≠ t → s.heap.pc u = .exited
  idle : s.heap.pc t = .idle
  released : s.heap.live = []

end Definitions

section Consume

variable {view next : View} {n : Nat} {blk : Addr}

theorem Consumed.ready (consumed : Consumed n view next) (positive : 0 < n) : Ready next := by
  obtain ⟨x, live, owned, _⟩ := consumed.taken
  exact ⟨consumed.idle, consumed.bump ▸ positive, x, live ▸ List.mem_cons_self, owned⟩

theorem Consumed.left (consumed : Consumed n view next) : next.left < view.left := by
  obtain ⟨x, _, _, ⟨queue, ring⟩ | ⟨queue, some, emptied⟩⟩ := consumed.taken
  · unfold View.left
    rw [queue, ring, List.length_cons]
    omega
  · have length := emptied.length
    rw [List.length_cons] at length
    unfold View.left
    rw [queue, consumed.head, emptied.tail, List.length_nil]
    have less : view.ring.head.toNat - view.ring.tail.toNat =
        (view.ring.head.toNat - (view.ring.tail.toNat + 1)) + 1 := by omega
    rw [less, Nat.mul_succ]
    omega

theorem Consumed.obtainable (consumed : Consumed n view next) (before : Obtainable blk view) :
    Obtainable blk next := by
  obtain ⟨x, live, _, step⟩ := consumed.taken
  rcases before with ⟨y, held, same⟩ | queued | ⟨p, after, below, here⟩
  · exact .inl ⟨y, live ▸ List.mem_cons_of_mem x held, same⟩
  · rcases step with ⟨queue, _⟩ | ⟨queue, _⟩
    · rw [queue] at queued
      rcases List.mem_cons.mp queued with same | later
      · exact .inl ⟨x, live ▸ List.mem_cons_self, same.symm⟩
      · exact .inr (.inl later)
    · rw [queue] at queued
      cases queued
  · rcases step with ⟨_, ring⟩ | ⟨_, _, emptied⟩
    · exact .inr (.inr ⟨p, by rwa [ring], by rwa [ring], by rwa [ring]⟩)
    · by_cases first : p % K = slot view.ring.tail
      · rw [first] at here
        rcases List.mem_cons.mp (emptied.perm.symm.subset here) with same | later
        · exact .inl ⟨x, live ▸ List.mem_cons_self, same.symm⟩
        · exact .inr (.inl later)
      · refine .inr (.inr ⟨p, ?_, ?_, ?_⟩)
        · have apart : p ≠ view.ring.tail.toNat := by
            rintro rfl
            exact first (slot_eq _).symm
          rw [emptied.tail]
          omega
        · rwa [consumed.head]
        · rwa [emptied.others _ first]

end Consume

section Arrive

variable {Thread : Type} [DecidableEq Thread] [Fintype Thread] {s : State Thread} {t : Thread}
  {view : View} {blk : Addr} {n : Nat}

theorem Arrives.order (arrives : Arrives t s view) :
    view.ring.tail.toNat ≤ view.ring.head.toNat := by
  obtain ⟨mid, path, _, rfl⟩ := arrives
  exact (ordered_of_tidy path.reachable).ring.order

theorem Arrives.queue_le (arrives : Arrives t s view) : view.queue.length ≤ T := by
  obtain ⟨mid, path, _, rfl⟩ := arrives
  exact ((ordered_of_tidy path.reachable).stocked t).bounded

theorem Arrives.next (arrives : Arrives t s view)
    (pc : view.pc = ({ queue := view.queue } : Source).proceed n)
    (some : view.queue ≠ [] ∨ view.ring.tail.toNat < view.ring.head.toNat) :
    ∃ next, Arrives t s next ∧ Consumed n view next := by
  unfold Source.proceed at pc
  cases queue : view.queue with
  | cons blk rest =>
      rw [if_neg (by rw [queue]; nofun)] at pc
      obtain ⟨x, same, there⟩ := (arrives.consume pc queue).take rfl rfl
      refine ⟨_, there, rfl, Nat.zero_add n, rfl, x, rfl, congrArg _ same.symm, .inl ⟨?_, rfl⟩⟩
      rw [same]
      exact queue
  | nil =>
      rw [if_pos queue] at pc
      have published := some.resolve_left (not_not.mpr queue)
      obtain ⟨ring, batch, emptied, there⟩ := arrives.pop pc published
      cases batch with
      | nil => cases emptied.length
      | cons blk rest =>
          obtain ⟨x, same, there⟩ := (there.consume rfl rfl).take rfl rfl
          refine ⟨_, there, rfl, Nat.zero_add n, emptied.head, x, rfl, congrArg _ same.symm,
            .inr ⟨queue, published, ?_⟩⟩
          rw [same]
          exact emptied

theorem Arrives.more (arrives : Arrives t s view) (ready : Ready view)
    (some : view.queue ≠ [] ∨ view.ring.tail.toNat < view.ring.head.toNat) :
    ∃ next, Arrives t s next ∧ Consumed 4096 view next := by
  obtain ⟨x, held, owned⟩ := ready.held
  rcases arrives.enter ready.idle with ⟨none, _⟩ | ⟨blk, also, ⟨zero, _⟩ | dropping⟩
  · cases owned.symm.trans none
  · exact absurd zero ready.spent.ne'
  · have same : x.source = blk := Option.some.inj (owned.symm.trans also)
    obtain ⟨next, there, idle, bump, head, taken⟩ :=
      (dropping.drop rfl also ⟨x, held, same⟩).next rfl some
    exact ⟨next, there, idle, bump, head, taken⟩

/-- The thread consumes what it can get without a publication. -/
theorem Arrives.exhaust (arrives : Arrives t s view) (ready : Ready view) :
    ∃ next, Arrives t s next ∧ Ready next ∧ next.queue = [] ∧
      next.ring.tail.toNat = next.ring.head.toNat ∧ next.ring.head = view.ring.head ∧
      ∀ blk, Obtainable blk view → ∃ x ∈ next.live, x.source = blk := by
  generalize measure : view.left = left
  induction left using Nat.strong_induction_on generalizing view with
  | h left inductionHypothesis =>
      by_cases some : view.queue ≠ [] ∨ view.ring.tail.toNat < view.ring.head.toNat
      · obtain ⟨next, there, consumed⟩ := arrives.more ready some
        obtain ⟨last, arrived, still, queue, ring, head, all⟩ := inductionHypothesis _
          (measure ▸ consumed.left) there (consumed.ready (by decide)) rfl
        exact ⟨last, arrived, still, queue, ring, head.trans consumed.head,
          fun blk obtainable => all blk (consumed.obtainable obtainable)⟩
      · rw [not_or, not_not] at some
        have drained := Nat.le_antisymm arrives.order (Nat.not_lt.mp some.2)
        refine ⟨view, arrives, ready, some.1, drained, rfl, ?_⟩
        rintro blk (held | queued | ⟨p, after, below, _⟩)
        · exact held
        · rw [some.1] at queued
          cases queued
        · omega

omit [Fintype Thread] in
/-- A block of the pool is in a list, or in use by the thread. -/
theorem Arrives.found (arrives : Arrives t s view) (idle : view.pc = .idle) {p : Addr}
    (mapped : p ∈ s.mapped) (known : blk ∈ blocksOf p) :
    blk ∈ view.queue ∨ (∃ e, blk ∈ (view.ring.entry e).blocks) ∨
      (∃ x ∈ view.live, x.source = blk) ∨ view.consume = some blk := by
  obtain ⟨mid, path, outside, rfl⟩ := arrives
  have kept := kept_of_tidy path.reachable
  have created : mid.Created blk := by
    refine ⟨p, path.mapped ▸ mapped, known, fun u => ?_⟩
    have nowhere : mid.remote u = .idle := by
      by_cases mine : u = t
      · exact mine ▸ outside
      · exact path.lone.remote u mine
    rw [nowhere]
    nofun
  by_cases unused : mid.heap.useCount blk = 0
  · obtain ⟨place, here⟩ := (kept.placed.pool blk).mpr ⟨created, unused⟩
    cases place with
    | entry e => exact .inr (.inl ⟨e, here⟩)
    | thread u =>
        change blk ∈ mid.holding u at here
        by_cases mine : u = t
        · rw [mine, holding_idle outside, free_eq idle rfl] at here
          exact .inl here
        · rw [holding_idle (path.lone.remote u mine), path.lone.free u mine] at here
          cases here
  · by_cases owned : mid.heap.owner t = some blk
    · rw [owner_eq idle rfl] at owned
      exact .inr (.inr (.inr owned))
    · refine .inr (.inr (.inl (kept.exists_live unused fun u => ?_)))
      by_cases mine : u = t
      · exact mine ▸ owned
      · rw [path.lone.owner u mine]
        nofun

/-- Once every batch has been popped, the entry at head has the blocks that are left. -/
theorem Arrives.atHead (arrives : Arrives t s view)
    (drained : view.ring.tail.toNat = view.ring.head.toNat) :
    (view.ring.entry (slot view.ring.head)).blocks.length < T ∧
      ∀ e, e ≠ slot view.ring.head → (view.ring.entry e).blocks = [] := by
  obtain ⟨mid, path, outside, rfl⟩ := arrives
  have ordered := ordered_of_tidy path.reachable
  have quiet := path.lone.quiet outside
  have filling (e : Nat) : (mid.ring.entry e).n < T ∧
      (mid.ring.entry e).n = (mid.ring.entry e).blocks.length := by
    refine ordered.ring.filling_of_quiet quiet ?_
    rintro ⟨p, after, before, _⟩
    exact Nat.not_lt.mpr drained.ge (Nat.lt_of_le_of_lt after before)
  refine ⟨?_, fun e apart => ?_⟩
  · obtain ⟨below, length⟩ := filling (slot mid.ring.head)
    exact length ▸ below
  · obtain ⟨below, length⟩ := filling e
    have zero := (ordered.untouched e apart).resolve_right below.ne
    exact List.length_eq_zero_iff.mp (length.symm.trans zero)

/-- The blocks of a mapping do not fit in the queue, the entry at head and one more place. -/
theorem crowded {p : Addr} {queue entry : List Addr} (last : Option Addr)
    (all : ∀ blk ∈ blocksOf p, blk ∈ queue ∨ blk ∈ entry ∨ last = some blk)
    (queued : queue.length ≤ T) (entered : entry.length < T) : False := by
  have inside : blocksOf p ⊆ queue ++ (entry ++ last.toList) := by
    intro blk member
    rcases all blk member with there | there | there
    · exact List.mem_append_left _ there
    · exact List.mem_append_right _ (List.mem_append_left _ there)
    · rw [there]
      exact List.mem_append_right _ (List.mem_append_right _ (List.mem_singleton_self blk))
  have length := ((blocksOf_nodup p).subperm inside).length_le
  have single : last.toList.length ≤ 1 := by
    cases last with
    | none => exact Nat.zero_le 1
    | some blk => exact Nat.le_refl 1
  have sizes : M = 64 ∧ T = 16 := ⟨rfl, rfl⟩
  rw [blocksOf_length, List.length_append, List.length_append] at length
  omega

/-- The queue, the entry at head and the block consumed do not have all blocks of a mapping. -/
theorem Arrives.exists_other (arrives : Arrives t s view) (idle : view.pc = .idle)
    (drained : view.ring.tail.toNat = view.ring.head.toNat) {p : Addr} (mapped : p ∈ s.mapped) :
    ∃ x ∈ view.live, view.consume ≠ some x.source := by
  obtain ⟨room, others⟩ := arrives.atHead drained
  by_contra none
  refine crowded (p := p) view.consume (fun b known => ?_) arrives.queue_le room
  rcases arrives.found idle mapped known with there | ⟨e, there⟩ | ⟨x, held, same⟩ | there
  · exact .inl there
  · by_cases atHead : e = slot view.ring.head
    · exact .inr (.inl (atHead ▸ there))
    · rw [others e atHead] at there
      cases there
  · exact .inr (.inr (same ▸ not_not.mp fun apart => none ⟨x, held, apart⟩))
  · exact .inr (.inr there)

/-- A block goes to the entry at head, which is published if it is full then. -/
theorem Arrives.give {b : Addr} (arrives : Arrives t s view) (pc : view.pc = .giving b none)
    (drained : view.ring.tail.toNat = view.ring.head.toNat)
    (here : blk ∈ (view.ring.entry (slot view.ring.head)).blocks)
    (short : view.ring.head.toNat + 1 < 2 ^ 32) :
    ∃ ring, Arrives t s { view with pc := .idle, ring } ∧
      ((ring.tail = view.ring.tail ∧ ring.head = view.ring.head ∧
          blk ∈ (ring.entry (slot ring.head)).blocks) ∨
        Obtainable blk { view with pc := .idle, ring }) := by
  have room : view.ring.head.toNat - view.ring.tail.toNat < K := by
    rw [drained, Nat.sub_self]
    decide
  obtain ⟨ring, pushed, arrived⟩ := arrives.push pc room short
  have there : blk ∈ (ring.entry (slot view.ring.head)).blocks := by
    rw [pushed.here]
    exact List.mem_cons_of_mem b here
  refine ⟨ring, arrived, ?_⟩
  rcases pushed.head with same | published
  · exact .inl ⟨pushed.tail, same, same.symm ▸ there⟩
  · refine .inr (.inr (.inr ⟨view.ring.head.toNat, ?_, ?_, ?_⟩))
    · exact pushed.tail.symm ▸ drained.le
    · exact published ▸ Nat.lt_succ_self _
    · exact slot_eq view.ring.head ▸ there

/-- The thread releases blocks until the entry at head is published. -/
theorem Arrives.fill (arrives : Arrives t s view) (ready : Ready view)
    (drained : view.ring.tail.toNat = view.ring.head.toNat) {p : Addr} (mapped : p ∈ s.mapped)
    (here : blk ∈ (view.ring.entry (slot view.ring.head)).blocks)
    (short : view.ring.head.toNat + 1 < 2 ^ 32) :
    ∃ next, Arrives t s next ∧ Ready next ∧ Obtainable blk next := by
  generalize measure : view.live.length = left
  induction left generalizing view with
  | zero =>
      obtain ⟨x, held, _⟩ := ready.held
      rw [List.length_eq_zero_iff.mp measure] at held
      cases held
  | succ left inductionHypothesis =>
      obtain ⟨y, kept, owned⟩ := ready.held
      obtain ⟨x, held, apart⟩ := arrives.exists_other ready.idle drained mapped
      have still : y ∈ view.live.erase x := by
        refine (List.mem_erase_of_ne ?_).mpr kept
        rintro rfl
        exact apart owned
      have fewer : (view.live.erase x).length = left := by
        rw [List.length_erase_of_mem held, measure]
        rfl
      rcases arrives.release ready.idle held with there | there | there
      · exact inductionHypothesis there ⟨ready.idle, ready.spent, y, still, owned⟩ drained here
          short fewer
      · exact inductionHypothesis there ⟨rfl, ready.spent, y, still, owned⟩ drained here short
          fewer
      · obtain ⟨ring, given, ⟨tail, head, inside⟩ | obtainable⟩ :=
          there.give rfl drained here short
        · refine inductionHypothesis given ⟨rfl, ready.spent, y, still, owned⟩ ?_ inside ?_ fewer
          · exact (congrArg BitVec.toNat tail).trans
              (drained.trans (congrArg BitVec.toNat head).symm)
          · exact head.symm ▸ short
        · exact ⟨_, given, ⟨rfl, ready.spent, y, still, owned⟩, obtainable⟩

omit [DecidableEq Thread] [Fintype Thread] in
theorem exists_position {tail head : Nat} (e : Nat) (small : e < K) (long : K ≤ head - tail) :
    ∃ p, tail ≤ p ∧ p < head ∧ p % K = e := by
  have size : K = 64 := rfl
  rw [size] at small long ⊢
  exact ⟨tail + (e + 64 - tail % 64) % 64, by omega, by omega, by omega⟩

omit [DecidableEq Thread] [Fintype Thread] in
theorem length_flatMap_blocks {α : Type} (list : List α) {blocks : α → List Addr} {size : Nat}
    (same : ∀ x ∈ list, (blocks x).length = size) :
    (list.flatMap blocks).length = list.length * size := by
  rw [List.length_flatMap, List.sum_eq_card_nsmul _ size (by simpa using same), List.length_map]
  rfl

/-- A ring of full entries has all blocks. -/
theorem Arrives.room (arrives : Arrives t s view) {resume : Option Nat}
    (pc : view.pc = .giving blk resume) :
    view.ring.head.toNat - view.ring.tail.toNat < K := by
  obtain ⟨mid, path, outside, rfl⟩ := arrives
  have ordered := ordered_of_tidy path.reachable
  have placed := (kept_of_tidy path.reachable).placed
  by_contra long
  have full (e : Nat) (small : e < K) : (mid.ring.entry e).blocks.length = T := by
    obtain ⟨p, after, before, rfl⟩ := exists_position e small (Nat.not_lt.mp long)
    exact (ordered.ring.exact.full (path.lone.quiet outside) p after before).2
  let entries := (List.range K).flatMap fun e => (mid.ring.entry e).blocks
  have size : entries.length = K * T := by
    have each := length_flatMap_blocks (List.range K) fun e member =>
      full e (List.mem_range.mp member)
    rwa [List.length_range] at each
  have mine : blk ∈ mid.holding t := by
    rw [holding_idle outside, free_eq pc rfl]
    exact List.mem_cons_self
  have distinct : (blk :: entries).Nodup := by
    refine List.nodup_cons.mpr ⟨fun member => ?_, List.nodup_flatMap.mpr ⟨?_, ?_⟩⟩
    · obtain ⟨e, _, there⟩ := List.mem_flatMap.mp member
      cases placed.apart (.thread t) (.entry e) blk mine there
    · exact fun e _ => placed.nodup (.entry e)
    · refine List.nodup_range.imp fun {e f} apart blk here there => ?_
      cases placed.apart (.entry e) (.entry f) blk here there
      exact apart rfl
  have inside : blk :: entries ⊆ mid.mapped.flatMap blocksOf := by
    have created (place : Place Thread) (b : Addr) (here : b ∈ mid.blocks place) :
        b ∈ mid.mapped.flatMap blocksOf := by
      obtain ⟨⟨p, known, member, _⟩, _⟩ := (placed.pool b).mp ⟨place, here⟩
      exact List.mem_flatMap.mpr ⟨p, known, member⟩
    intro b member
    rcases List.mem_cons.mp member with rfl | member
    · exact created (.thread t) b mine
    · obtain ⟨e, _, there⟩ := List.mem_flatMap.mp member
      exact created (.entry e) b there
  have length := (distinct.subperm inside).length_le
  rw [List.length_cons, size, length_flatMap_blocks mid.mapped fun p _ => blocksOf_length p]
    at length
  have mapped := Nat.mul_le_mul_right M ordered.mapped
  have capacity : K * T = N * M := by decide
  omega

omit [DecidableEq Thread] [Fintype Thread] in
theorem Remote.Fits.idle {pc : Pc} {remote : Remote} (fits : remote.Fits pc)
    (quiet : pc = .exited ∨ pc = .idle) : remote = .idle := by
  have apart (other : Pc) (same : pc = other) : other = .exited ∨ other = .idle := same ▸ quiet
  cases remote with
  | idle => rfl
  | push call =>
      obtain ⟨⟨blk, resume, giving⟩, _⟩ := fits
      exact absurd (apart _ giving) nofun
  | prepend call =>
      obtain ⟨⟨n, popping⟩, _⟩ := fits
      exact absurd (apart _ popping) nofun
  | pop | allocate | claim | store =>
      obtain ⟨n, popping⟩ := fits
      exact absurd (apart _ popping) nofun

omit [Fintype Thread] in
theorem Alone.arrives (alone : Alone t s)
    (reachable : ((system Thread).restrict Tidy).Reachable s) : Arrives t s (s.view t) := by
  have kept := kept_of_tidy reachable
  have remote (u : Thread) (quiet : s.heap.pc u = .exited ∨ s.heap.pc u = .idle) :
      s.remote u = .idle := (kept.fits u).idle quiet
  have mine := remote t (.inr alone.idle)
  refine ⟨s, ⟨reachable, ⟨alone.running, fun u apart => ?_, fun u apart => ?_, fun u apart => ?_⟩,
    .refl, rfl⟩, mine, rfl⟩
  · exact remote u (.inl (alone.exited u apart))
  · rw [free_eq (alone.exited u apart) (kept.left u (alone.exited u apart))]
    rfl
  · rw [owner_eq (alone.exited u apart) (kept.left u (alone.exited u apart))]
    rfl

theorem Alone.ready (alone : Alone t s)
    (reachable : ((system Thread).restrict Tidy).Reachable s) {p : Addr} (mapped : p ∈ s.mapped)
    (short : s.ring.head.toNat + 1 < 2 ^ 32) :
    ∃ view, Arrives t s view ∧ Ready view ∧ view.ring.head.toNat ≤ s.ring.head.toNat + 1 := by
  have start := alone.arrives reachable
  rcases start.enter alone.idle with ⟨none, there⟩ | ⟨blk, owned, ⟨_, there⟩ | there⟩
  · have some : (s.view t).queue ≠ [] ∨
        (s.view t).ring.tail.toNat < (s.view t).ring.head.toNat := by
      by_contra nothing
      rw [not_or, not_not] at nothing
      have drained := Nat.le_antisymm start.order (Nat.not_lt.mp nothing.2)
      obtain ⟨x, held, _⟩ := start.exists_other alone.idle drained mapped
      rw [show (s.view t).live = [] from alone.released] at held
      cases held
    obtain ⟨next, there, consumed⟩ := there.next rfl some
    exact ⟨next, there, consumed.ready (by decide), consumed.head ▸ Nat.le_succ _⟩
  · obtain ⟨x, same, there⟩ := there.take rfl owned
    exact ⟨_, there, ⟨rfl, by simp, x, List.mem_cons_self, same ▸ owned⟩, Nat.le_succ _⟩
  · have last : ∀ x ∈ s.heap.live, x.source ≠ blk := by
      rw [alone.released]
      nofun
    rcases there.dropLast rfl owned last with there | ⟨full, there⟩
    · obtain ⟨next, there, consumed⟩ := there.next (n := 4096) rfl (.inl nofun)
      exact ⟨next, there, consumed.ready (by decide), consumed.head ▸ Nat.le_succ _⟩
    · obtain ⟨ring, pushed, there⟩ := there.push rfl (there.room rfl) short
      have queued : (s.view t).queue ≠ [] := by
        intro empty
        rw [empty] at full
        exact absurd full (by decide)
      obtain ⟨next, there, consumed⟩ := there.next (n := 4096) rfl (.inl queued)
      refine ⟨next, there, consumed.ready (by decide), ?_⟩
      rw [consumed.head]
      rcases pushed.head with same | published
      · exact same ▸ Nat.le_succ _
      · exact published.le

/-- A thread that is left alone gets every block without a mapping. -/
theorem Alone.recovers (alone : Alone t s)
    (reachable : ((system Thread).restrict Tidy).Reachable s) (created : s.Created blk)
    (short : s.ring.head.toNat + 2 < 2 ^ 32) :
    ∃ after, Solo t s after ∧ ∃ x ∈ after.heap.live, x.source = blk := by
  obtain ⟨p, mapped, known, _⟩ := created
  have arrive (view : View) (arrives : Arrives t s view) (held : ∃ x ∈ view.live, x.source = blk) :
      ∃ after, Solo t s after ∧ ∃ x ∈ after.heap.live, x.source = blk := by
    obtain ⟨after, path, _, rfl⟩ := arrives
    exact ⟨after, path.run, held⟩
  obtain ⟨first, there, ready, near⟩ := alone.ready reachable mapped (by omega)
  obtain ⟨view, there, ready, queue, drained, head, _⟩ := there.exhaust ready
  rcases there.found ready.idle mapped known with queued | ⟨e, here⟩ | held | owned
  · rw [queue] at queued
    cases queued
  · have atHead : e = slot view.ring.head := by
      by_contra apart
      rw [(there.atHead drained).2 e apart] at here
      cases here
    obtain ⟨next, there, ready, obtainable⟩ := there.fill ready drained mapped (atHead ▸ here)
      (by rw [head]; omega)
    obtain ⟨last, there, _, _, _, _, all⟩ := there.exhaust ready
    exact arrive last there (all blk obtainable)
  · exact arrive view there held
  · obtain ⟨x, held, same⟩ := ready.held
    exact arrive view there ⟨x, held, Option.some.inj (same.symm.trans owned)⟩

end Arrive

end NgrCore.MemoryResource
