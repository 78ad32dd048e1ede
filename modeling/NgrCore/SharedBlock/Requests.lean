import NgrCore.SharedBlock

/-!
Owns `__local_source::_M_acquire` for requests of any 32-bit size, with the guard computed
as the source computes it: an unsigned difference of 32-bit words.
-/

namespace NgrCore.SharedBlock

open NgrCore.RemoteSource (T)

/-- `__local_source` and the use counts of the blocks. The queue is the list of its blocks,
front first. -/
structure Source where
  queue : List Addr := []
  consume : Option Addr := none
  bump : BitVec 32 := 4096
  count : BitVec 32 := 0
  useCount : Addr → Int := fun _ => 0

/-- What happens to a source: a request, with the batch that the remote source would hand
out; the release of a subrange; or changes of the use counts by other threads. -/
inductive Request
  | acquire (n : BitVec 32) (first : Addr) (batch : List Addr)
  | release (x : Subrange)
  | others (useCount : Addr → Int)

namespace Source

variable (source : Source)

/-- `_M_release`: the block goes to the queue, or to the remote source. -/
def recycle (blk : Addr) : Source :=
  if source.count < BitVec.ofNat 32 T then
    { source with queue := blk :: source.queue, count := source.count + 1 }
  else source

def release (x : Subrange) : Source :=
  let dropped := { source with useCount := addUse source.useCount x.source (-1) }
  if source.useCount x.source = 1 then dropped.recycle x.source else dropped

/-- The first half of `_M_allocate`: the use of the current block is given up. -/
def dropConsume : Source :=
  match source.consume with
  | none => source
  | some blk =>
      let dropped := { source with useCount := addUse source.useCount blk (-1) }
      if source.useCount blk = 1 then dropped.recycle blk else dropped

/-- An empty queue is filled with a batch of the remote source. -/
def refill (first : Addr) (batch : List Addr) : Source :=
  if source.queue = [] then
    { source with queue := first :: batch, count := source.count + BitVec.ofNat 32 T }
  else source

/-- The second half of `_M_allocate`. `none` means that a null `__consume_` was followed. -/
def consumeFront : Option Source :=
  source.queue.head?.map fun blk => { source with
    queue := source.queue.tail
    consume := some blk
    bump := 0
    count := source.count - 1
    useCount := addUse source.useCount blk 1 }

def allocate (first : Addr) (batch : List Addr) : Option Source :=
  (source.dropConsume.refill first batch).consumeFront

/-- The end of `_M_acquire`. -/
def take (n : BitVec 32) : Option (Subrange × Source) :=
  source.consume.map fun blk =>
    (⟨blk, source.bump, n⟩,
      { source with bump := source.bump + n, useCount := addUse source.useCount blk 1 })

/-- `_M_acquire`. `none` means that a null `__consume_` was followed. -/
def acquire (n : BitVec 32) (first : Addr) (batch : List Addr) : Option (Subrange × Source) :=
  if 4096 - source.bump < n then (source.allocate first batch).bind fun source => source.take n
  else source.take n

def bumpSuffix : BitVec 32 := 4096 - source.bump

end Source

/-- The range lies inside the payload of its block. -/
def Subrange.Inside (x : Subrange) : Prop := x.offset.toNat + x.len.toNat ≤ 4096

/-- A request is served: no null pointer is followed, the range returned lies inside its
payload, and the cursor stays in the payload, so that what is left of it does not wrap. -/
structure Source.Serves (source : Source) (n : BitVec 32) (first : Addr) (batch : List Addr)
    (x : Subrange) (next : Source) : Prop where
  acquired : source.acquire n first batch = some (x, next)
  inside : x.Inside
  bump : next.bump ≤ 4096
  suffix : next.bumpSuffix.toNat = 4096 - next.bump.toNat

/-- Every request of the sequence is served. -/
def Served : Source → List Request → Prop
  | _, [] => True
  | source, .acquire n first batch :: rest => ∃ x next,
      source.Serves n first batch x next ∧ Served next rest
  | source, .release x :: rest => Served (source.release x) rest
  | source, .others useCount :: rest => Served { source with useCount := useCount } rest

/-- The sizes requested, in order. -/
def sizes : List Request → List (BitVec 32)
  | [] => []
  | .acquire n _ _ :: rest => n :: sizes rest
  | _ :: rest => sizes rest

section Requests

variable {source : Source} {n : BitVec 32} {first : Addr} {batch : List Addr}

/-- The cursor is in the payload; a source without a block has none of it left. -/
structure Source.Bounded (source : Source) : Prop where
  bump : source.bump ≤ 4096
  fresh : source.consume = none → source.bump = 4096

theorem Source.Bounded.congr {next : Source} (bounded : source.Bounded)
    (bump : next.bump = source.bump) (consume : next.consume = source.consume) :
    next.Bounded := by
  refine ⟨bump ▸ bounded.bump, fun none => ?_⟩
  rw [bump]
  exact bounded.fresh (consume ▸ none)

theorem Source.recycle_cursor (blk : Addr) :
    (source.recycle blk).bump = source.bump ∧ (source.recycle blk).consume = source.consume := by
  unfold recycle
  split
  · exact ⟨rfl, rfl⟩
  · exact ⟨rfl, rfl⟩

theorem Source.release_cursor (x : Subrange) :
    (source.release x).bump = source.bump ∧ (source.release x).consume = source.consume := by
  unfold release
  dsimp only
  split
  · exact recycle_cursor x.source
  · exact ⟨rfl, rfl⟩

/-- `_M_allocate` always finds a block, and starts at the beginning of its payload. -/
theorem Source.allocate_spec (source : Source) (first : Addr) (batch : List Addr) :
    ∃ next blk, source.allocate first batch = some next ∧ next.consume = some blk ∧
      next.bump = 0 := by
  have filled : (source.dropConsume.refill first batch).queue ≠ [] := by
    unfold refill
    split
    · exact List.cons_ne_nil first batch
    · assumption
  obtain ⟨blk, front⟩ := Option.ne_none_iff_exists'.mp (List.head?_eq_none_iff.not.mpr filled)
  exact ⟨_, blk, by rw [allocate, consumeFront, front]; rfl, rfl, rfl⟩

/-- The guard is true exactly when the payload has no room. -/
theorem room_iff {bump : BitVec 32} (bounded : bump ≤ 4096) :
    4096 - bump < n ↔ 4096 < bump.toNat + n.toNat := by
  bv_omega

theorem Source.Serves.of_cursor {x : Subrange} {next : Source}
    (acquired : source.acquire n first batch = some (x, next)) (inside : x.Inside)
    (bump : next.bump ≤ 4096) : source.Serves n first batch x next := by
  refine ⟨acquired, inside, bump, ?_⟩
  unfold bumpSuffix
  bv_omega

theorem Source.take_eq {blk : Addr} (consume : source.consume = some blk) :
    source.take n = some (⟨blk, source.bump, n⟩,
      { source with bump := source.bump + n, useCount := addUse source.useCount blk 1 }) := by
  rw [take, consume]
  rfl

theorem Source.acquire_full {next : Source} (room : 4096 - source.bump < n)
    (allocated : source.allocate first batch = some next) :
    source.acquire n first batch = next.take n := by
  rw [acquire, if_pos room, allocated, Option.bind_some]

theorem Source.acquire_room (first : Addr) (batch : List Addr) (room : ¬ 4096 - source.bump < n) :
    source.acquire n first batch = source.take n := if_neg room

theorem Source.Bounded.acquire (bounded : source.Bounded) (small : n ≤ 4096)
    (first : Addr) (batch : List Addr) (some : source.consume = none → n ≠ 0) :
    ∃ x next, source.Serves n first batch x next ∧ next.consume ≠ none := by
  by_cases room : 4096 - source.bump < n
  · obtain ⟨next, blk, allocated, consume, bump⟩ := source.allocate_spec first batch
    have acquired := (acquire_full room allocated).trans (take_eq consume)
    refine ⟨_, _, .of_cursor acquired ?_ ?_, ?_⟩
    · rw [Subrange.Inside, bump]
      bv_omega
    · dsimp only
      rw [bump]
      bv_omega
    · rw [consume]
      exact Option.some_ne_none blk
  · have fits := (room_iff bounded.bump).not.mp room
    have bump := bounded.bump
    cases consume : source.consume with
    | none =>
        have full := bounded.fresh consume
        have positive := some consume
        rw [full] at room
        exact absurd (by bv_omega) room
    | some blk =>
        have acquired := (acquire_room first batch room).trans (take_eq consume)
        refine ⟨_, _, .of_cursor acquired ?_ ?_, ?_⟩
        · exact Nat.le_of_not_lt fits
        · dsimp only
          bv_omega
        · rw [consume]
          exact Option.some_ne_none blk

theorem Source.take_taken {x : Subrange} {next : Source}
    (taken : source.take n = some (x, next)) : x.len = n ∧ next.consume ≠ none := by
  obtain ⟨blk, consume, same⟩ := Option.map_eq_some_iff.mp taken
  obtain ⟨rfl, rfl⟩ := Prod.mk.inj same
  refine ⟨rfl, ?_⟩
  rw [consume]
  exact Option.some_ne_none blk

/-- No request is refused for its size. -/
theorem Source.acquire_taken {x : Subrange} {next : Source}
    (acquired : source.acquire n first batch = some (x, next)) :
    x.len = n ∧ next.consume ≠ none := by
  unfold Source.acquire at acquired
  split at acquired
  · obtain ⟨allocated, -, taken⟩ := Option.bind_eq_some_iff.mp acquired
    exact take_taken taken
  · exact take_taken acquired

/-- A first request of no bytes passes the guard without a block. -/
theorem Source.Bounded.acquire_zero (bounded : source.Bounded) (none : source.consume = none) :
    source.acquire 0 first batch = Option.none := by
  rw [Source.acquire, bounded.fresh none, if_neg (by decide), take, none]
  rfl

theorem served_iff (requests : List Request) : ∀ {source : Source}, source.Bounded →
    (Served source requests ↔ (∀ n ∈ sizes requests, n ≤ 4096) ∧
      (source.consume = none → (sizes requests).head? ≠ some 0)) := by
  induction requests with
  | nil =>
      intro source _
      simp [Served, sizes]
  | cons request rest inductionHypothesis =>
      intro source bounded
      cases request with
      | acquire n first batch =>
          constructor
          · rintro ⟨x, next, serves, served⟩
            obtain ⟨len, consume⟩ := Source.acquire_taken serves.acquired
            have later := (inductionHypothesis
              ⟨serves.bump, fun none => absurd none consume⟩).mp served
            have inside : x.offset.toNat + x.len.toNat ≤ 4096 := serves.inside
            refine ⟨List.forall_mem_cons.mpr ⟨?_, later.1⟩, fun none zero => ?_⟩
            · rw [← len]
              bv_omega
            · have acquired := serves.acquired
              rw [Option.some.inj zero, bounded.acquire_zero none] at acquired
              cases acquired
          · rintro ⟨small, first⟩
            obtain ⟨x, next, serves, consume⟩ := bounded.acquire (small n List.mem_cons_self) _ _
              fun none zero => first none (congrArg some zero)
            refine ⟨x, next, serves, (inductionHypothesis
              ⟨serves.bump, fun none => absurd none consume⟩).mpr ⟨?_, fun none => ?_⟩⟩
            · exact fun other member => small other (List.mem_cons_of_mem n member)
            · exact absurd none consume
      | release x =>
          have cursor := source.release_cursor x
          rw [Served, inductionHypothesis (bounded.congr cursor.1 cursor.2), cursor.2]
          rfl
      | others useCount =>
          have changed : ({ source with useCount := useCount } : Source).Bounded :=
            bounded.congr rfl rfl
          exact inductionHypothesis changed

theorem bounded_fresh : ({} : Source).Bounded := ⟨by decide, fun _ => rfl⟩

/-- From a fresh source, every request is served if and only if none is larger than a
payload and the first is not of no bytes. -/
theorem served_iff_fits (requests : List Request) : Served {} requests ↔
    (∀ n ∈ sizes requests, n ≤ 4096) ∧ (sizes requests).head? ≠ some 0 := by
  rw [served_iff requests bounded_fresh]
  exact and_congr_right fun _ => ⟨fun first => first rfl, fun first _ => first⟩

/-- More than a payload is handed out of one block. -/
theorem not_served_large : ¬ Served {} [.acquire 5000 7 []] := by
  rw [served_iff _ bounded_fresh]
  exact fun fits => absurd (fits.1 5000 List.mem_cons_self) (by decide)

end Requests

end NgrCore.SharedBlock
