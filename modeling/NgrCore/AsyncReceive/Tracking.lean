import NgrCore.Library.RingCounter
import NgrCore.AsyncReceive
import Mathlib.Data.List.Nodup
import Mathlib.Data.List.Perm.Basic

/-!
Owns what `__async_receive` keeps track of: the CQEs not yet handled lead from its own
offset, buffer by buffer, to the place where the kernel writes next, and every buffer is
in the ring, in one of these CQEs, or being read.
-/

namespace NgrCore.AsyncReceive

open Library

/-- The buffers used up by receives whose CQEs are not handled yet. -/
def waiting (cq : List Posted) : List (BitVec 16) := cq.flatMap Posted.usedUp

namespace Machine

/-- The buffer whose last slice is being read. -/
def reading (m : Machine) : List (BitVec 16) := waiting m.given.toList

/-- The buffers in the kernel's ring, the current one first. -/
def ring (m : Machine) : List (BitVec 16) :=
  (List.range (m.op.tail - m.head).toNat).map fun i =>
    (m.op.bufs (entry (m.head + BitVec.ofNat 16 i))).bid

end Machine

def buffers : List (BitVec 16) := (List.range nrBufs.toNat).map (BitVec.ofNat 16)

/-- A slice is the bytes of its CQE and lies inside its buffer, every buffer is in one
place, a buffer is put back once for each use, when its last slice has been read, and the
operation is queued, submitted or live at most once. -/
structure Delivers (m : Machine) : Prop where
  bytes : ∀ posted, m.given = some posted →
    m.mem.read m.op.awaitResume.1 m.op.awaitResume.2.toNat = posted.bytes
  inside : ∀ posted, m.given = some posted → m.op.bid ∈ buffers ∧
    slot m.op.bufMem m.op.bid ≤ m.op.awaitResume.1 ∧
    m.op.awaitResume.1 + m.op.awaitResume.2.toNat ≤
      slot m.op.bufMem m.op.bid + bufSize.toNat
  buffers : (waiting m.cq ++ m.ring ++ m.reading).Perm buffers
  putBack : m.putBack = m.consumed
  used : m.used = m.consumed ++ m.reading ++ waiting m.cq
  once : m.queued + m.submitted + m.live.toNat ≤ 1

/-! ### The ring -/

section Ring

variable {bufMem first cursor : Nat} {bufs : Nat → Buf} {ring : List (BitVec 16)}

theorem slot_eq (bufMem : Nat) (bid : BitVec 16) :
    slot bufMem bid = bufMem + bid.toNat * bufSize.toNat := by
  have bound := bid.isLt
  have size : bufSize.toNat = 4096 := rfl
  unfold slot
  rw [BitVec.toNat_mul, BitVec.toNat_setWidth, size]
  omega

theorem slot_apart {bid other : BitVec 16} (apart : bid ≠ other) {offset count place size : Nat}
    (fits : offset + count ≤ bufSize.toNat) (fitsToo : place + size ≤ bufSize.toNat) :
    slot bufMem bid + offset + count ≤ slot bufMem other + place ∨
      slot bufMem other + place + size ≤ slot bufMem bid + offset := by
  have different : bid.toNat ≠ other.toNat := fun same => apart (BitVec.eq_of_toNat_eq same)
  have whole : bufSize.toNat = 4096 := rfl
  rw [slot_eq, slot_eq]
  rw [whole] at fits fitsToo ⊢
  omega

theorem entry_ofNat (position : Nat) :
    entry (BitVec.ofNat 16 position) = position % nrBufs.toNat := by
  have low : mask.toNat = 2 ^ 8 - 1 := rfl
  have size : nrBufs.toNat = 2 ^ 8 := rfl
  unfold entry
  rw [BitVec.toNat_and, low, Nat.and_two_pow_sub_one_eq_mod, BitVec.toNat_setWidth,
    BitVec.toNat_ofNat, size]
  omega

/-- The entry of a buffer of which the kernel has used the first `cursor` bytes. -/
def packed (bufMem cursor : Nat) (bid : BitVec 16) : Buf :=
  ⟨slot bufMem bid + cursor, BitVec.ofNat 32 (bufSize.toNat - cursor), bid⟩

/-- The entries from a position on hold the buffers, and the kernel has come to `cursor`
in the first of them. -/
def Entries (bufMem : Nat) (bufs : Nat → Buf) : Nat → Nat → List (BitVec 16) → Prop
  | _, _, [] => True
  | first, cursor, bid :: ring =>
      bufs (first % nrBufs.toNat) = packed bufMem cursor bid ∧
        Entries bufMem bufs (first + 1) 0 ring

theorem Entries.update (entries : Entries bufMem bufs first cursor ring) (position : Nat)
    (above : first + ring.length ≤ position) (below : position < first + nrBufs.toNat)
    (buf : Buf) :
    Entries bufMem (Function.update bufs (position % nrBufs.toNat) buf) first cursor ring := by
  induction ring generalizing first cursor with
  | nil => trivial
  | cons bid ring inductionHypothesis =>
      rw [List.length_cons] at above
      have other := mod_size_ne (by omega : first < position) below
      obtain ⟨held, rest⟩ := entries
      exact ⟨(Function.update_of_ne other _ _).trans held,
        inductionHypothesis rest (by omega) (by omega)⟩

theorem Entries.append (entries : Entries bufMem bufs first cursor ring) {bid : BitVec 16}
    (empty : ring = [] → cursor = 0)
    (last : bufs ((first + ring.length) % nrBufs.toNat) = packed bufMem 0 bid) :
    Entries bufMem bufs first cursor (ring ++ [bid]) := by
  induction ring generalizing first cursor with
  | nil =>
      rw [empty rfl]
      exact ⟨last, trivial⟩
  | cons front ring inductionHypothesis =>
      obtain ⟨held, rest⟩ := entries
      refine ⟨held, inductionHypothesis rest (fun _ => rfl) ?_⟩
      rwa [List.length_cons, ← Nat.add_assoc, Nat.add_right_comm] at last

theorem Entries.bids (entries : Entries bufMem bufs first cursor ring) :
    (List.range ring.length).map (fun i => (bufs ((first + i) % nrBufs.toNat)).bid) = ring := by
  induction ring generalizing first cursor with
  | nil => rfl
  | cons bid ring inductionHypothesis =>
      obtain ⟨held, rest⟩ := entries
      have tail := inductionHypothesis rest
      rw [List.length_cons, List.range_succ_eq_map, List.map_cons, List.map_map, Nat.add_zero,
        held]
      have shift : (fun i => (bufs ((first + i) % nrBufs.toNat)).bid) ∘ Nat.succ =
          fun i => (bufs ((first + 1 + i) % nrBufs.toNat)).bid := by
        funext i
        rw [Function.comp_apply, Nat.succ_eq_add_one, Nat.add_assoc, Nat.add_comm 1 i]
      rw [shift, tail]
      rfl

end Ring

/-! ### The CQEs -/

/-- The bytes of a receive lie in its buffer from `offset` on. -/
structure Posted.At (posted : Posted) (bufMem : Nat) (mem : Bytes) (offset : Nat) : Prop where
  size : posted.cqe.res = posted.bytes.length
  positive : 0 < posted.bytes.length
  bytes : mem.read (slot bufMem posted.cqe.bid + offset) posted.bytes.length = posted.bytes

/-- The CQEs lead from an offset in the first of the buffers to the place where the kernel
writes next, which is `cursor` in the first buffer of the ring. -/
inductive Tracks (bufMem : Nat) (mem : Bytes) (cursor : Nat) (ring : List (BitVec 16)) :
    List Posted → Nat → List (BitVec 16) → Prop
  | nil : Tracks bufMem mem cursor ring [] cursor ring
  | packing {posted : Posted} {rest : List Posted} {offset : Nat}
      {slots : List (BitVec 16)} :
      posted.At bufMem mem offset → posted.cqe.bufMore = true →
      offset + posted.bytes.length < bufSize.toNat →
      Tracks bufMem mem cursor ring rest (offset + posted.bytes.length)
        (posted.cqe.bid :: slots) →
      Tracks bufMem mem cursor ring (posted :: rest) offset (posted.cqe.bid :: slots)
  | last {posted : Posted} {rest : List Posted} {offset : Nat} {slots : List (BitVec 16)} :
      posted.At bufMem mem offset → posted.cqe.bufMore = false →
      offset + posted.bytes.length = bufSize.toNat →
      Tracks bufMem mem cursor ring rest 0 slots →
      Tracks bufMem mem cursor ring (posted :: rest) offset (posted.cqe.bid :: slots)
  | noBuffers {posted : Posted} {rest : List Posted} {slots : List (BitVec 16)} :
      posted.cqe.res = -ENOBUFS → Tracks bufMem mem cursor ring rest 0 slots →
      Tracks bufMem mem cursor ring (posted :: rest) 0 slots
  | ended {posted : Posted} {rest : List Posted} {offset : Nat} {slots : List (BitVec 16)} :
      posted.cqe.res ≤ 0 → posted.cqe.res ≠ -ENOBUFS →
      Tracks bufMem mem cursor ring rest offset slots →
      Tracks bufMem mem cursor ring (posted :: rest) offset slots

section Cqes

variable {bufMem cursor offset : Nat} {mem : Bytes} {ring slots : List (BitVec 16)}
  {cq rest : List Posted} {posted : Posted} {bid : BitVec 16}

@[simp] theorem waiting_cons (posted : Posted) (rest : List Posted) :
    waiting (posted :: rest) = posted.usedUp ++ waiting rest := List.flatMap_cons

@[simp] theorem waiting_append (front rest : List Posted) :
    waiting (front ++ rest) = waiting front ++ waiting rest := List.flatMap_append

theorem Posted.At.res_pos (held : posted.At bufMem mem offset) : 0 < posted.cqe.res := by
  have size := held.size
  have positive := held.positive
  omega

theorem usedUp_packing (more : posted.cqe.bufMore = true) : posted.usedUp = [] :=
  if_neg fun last => absurd last.2 (by simp [more])

theorem usedUp_last (positive : 0 < posted.cqe.res) (last : posted.cqe.bufMore = false) :
    posted.usedUp = [posted.cqe.bid] :=
  if_pos ⟨positive, last⟩

theorem usedUp_empty (empty : posted.cqe.res ≤ 0) : posted.usedUp = [] :=
  if_neg fun last => absurd last.1 (by omega)

/-- The buffers that the CQEs go through are those they use up, and then the ring. -/
theorem Tracks.slots_eq (tracks : Tracks bufMem mem cursor ring cq offset slots) :
    slots = waiting cq ++ ring := by
  induction tracks with
  | nil => rfl
  | packing _ more _ _ inductionHypothesis =>
      rw [waiting_cons, usedUp_packing more]
      exact inductionHypothesis
  | last held more _ _ inductionHypothesis =>
      rw [waiting_cons, usedUp_last held.res_pos more, inductionHypothesis]
      rfl
  | noBuffers none _ inductionHypothesis =>
      rw [waiting_cons, usedUp_empty (none ▸ by decide)]
      exact inductionHypothesis
  | ended empty _ _ inductionHypothesis =>
      rw [waiting_cons, usedUp_empty empty]
      exact inductionHypothesis

theorem Tracks.mem_slots (tracks : Tracks bufMem mem cursor ring cq offset slots)
    (member : bid ∈ ring) : bid ∈ slots := by
  rw [tracks.slots_eq]
  exact List.mem_append_right _ member

/-- As long as the CQEs stay in one buffer the kernel is ahead of them. -/
theorem Tracks.le_cursor (tracks : Tracks bufMem mem cursor ring cq offset slots)
    (nodup : slots.Nodup) (first : bid ∈ slots.head?) (current : bid ∈ ring.head?) :
    offset ≤ cursor := by
  induction tracks with
  | nil => exact le_rfl
  | packing _ _ _ _ inductionHypothesis =>
      exact (Nat.le_add_right _ _).trans (inductionHypothesis nodup first)
  | last _ _ _ tracks _ =>
      obtain rfl := Option.some.inj first
      have again := tracks.mem_slots (List.mem_of_head? current)
      exact absurd again (List.nodup_cons.mp nodup).1
  | noBuffers _ _ _ => exact Nat.zero_le _
  | ended _ _ _ inductionHypothesis => exact inductionHypothesis nodup first

/-- The kernel writes behind every slice that is still to be read. -/
theorem Tracks.write (tracks : Tracks bufMem mem cursor ring cq offset slots)
    (nodup : slots.Nodup) (current : bid ∈ ring.head?) {bytes : List (BitVec 8)}
    (fits : cursor + bytes.length ≤ bufSize.toNat) :
    Tracks bufMem (mem.write (slot bufMem bid + cursor) bytes) cursor ring cq offset slots := by
  induction tracks with
  | nil => exact .nil
  | @packing posted rest offset slots held more inside tracks inductionHypothesis =>
      refine .packing ⟨held.size, held.positive, ?_⟩ more inside (inductionHypothesis nodup)
      refine (Bytes.read_write_outside ?_).trans held.bytes
      by_cases same : posted.cqe.bid = bid
      · have ahead := tracks.le_cursor nodup (same ▸ rfl) current
        rw [same]
        omega
      · exact slot_apart same inside.le fits
  | @last posted rest offset slots held more inside tracks inductionHypothesis =>
      refine .last ⟨held.size, held.positive, ?_⟩ more inside
        (inductionHypothesis (List.nodup_cons.mp nodup).2)
      refine (Bytes.read_write_outside (slot_apart ?_ inside.le fits)).trans held.bytes
      rintro rfl
      exact (List.nodup_cons.mp nodup).1 (tracks.mem_slots (List.mem_of_head? current))
  | noBuffers none _ inductionHypothesis => exact .noBuffers none (inductionHypothesis nodup)
  | ended empty other _ inductionHypothesis =>
      exact .ended empty other (inductionHypothesis nodup)

/-- One more CQE, which leads from the kernel's place to its next one. -/
theorem Tracks.post (tracks : Tracks bufMem mem cursor ring cq offset slots)
    {cursorNext : Nat} {ringNext : List (BitVec 16)}
    (next : Tracks bufMem mem cursorNext ringNext [posted] cursor ring) :
    Tracks bufMem mem cursorNext ringNext (cq ++ [posted]) offset slots := by
  induction tracks with
  | nil => exact next
  | packing held more inside _ inductionHypothesis =>
      exact .packing held more inside inductionHypothesis
  | last held more inside _ inductionHypothesis => exact .last held more inside inductionHypothesis
  | noBuffers none _ inductionHypothesis => exact .noBuffers none inductionHypothesis
  | ended empty other _ inductionHypothesis => exact .ended empty other inductionHypothesis

theorem Tracks.putBack (tracks : Tracks bufMem mem cursor ring cq offset slots)
    (bid : BitVec 16) :
    Tracks bufMem mem cursor (ring ++ [bid]) cq offset (slots ++ [bid]) := by
  induction tracks with
  | nil => exact .nil
  | packing held more inside _ inductionHypothesis =>
      exact .packing held more inside inductionHypothesis
  | last held more inside _ inductionHypothesis => exact .last held more inside inductionHypothesis
  | noBuffers none _ inductionHypothesis => exact .noBuffers none inductionHypothesis
  | ended empty other _ inductionHypothesis => exact .ended empty other inductionHypothesis

end Cqes

/-! ### The invariant -/

/-- The slice being read lies in its buffer before the place where the kernel writes next,
or in a buffer that the kernel has not. -/
structure Reads (op : AsyncReceive) (mem : Bytes) (posted : Posted)
    (slots : List (BitVec 16)) : Prop where
  len : op.len.toNat = posted.bytes.length
  fits : op.offset.toNat + posted.bytes.length ≤ bufSize.toNat
  held : mem.read (slot op.bufMem op.bid + op.offset.toNat) posted.bytes.length = posted.bytes
  packing : posted.cqe.bufMore = true → op.bid ∈ slots.head? ∧
    op.offset.toNat + posted.bytes.length ≤ op.curOffset.toNat
  last : posted.cqe.bufMore = false → op.bid ∈ buffers ∧ op.bid ∉ slots

structure Inv (m : Machine) (cursor : Nat) (ring : List (BitVec 16)) : Prop where
  entries : ∃ first, m.head = BitVec.ofNat 16 first ∧
    m.op.tail = BitVec.ofNat 16 (first + ring.length) ∧
    Entries m.op.bufMem m.op.bufs first cursor ring
  cursor_lt : cursor < bufSize.toNat
  empty : ring = [] → cursor = 0
  tracks : Tracks m.op.bufMem m.mem cursor ring m.cq m.op.curOffset.toNat
    (waiting m.cq ++ ring)
  buffers : (waiting m.cq ++ ring ++ m.reading).Perm buffers
  pending : m.reading = if m.op.replenishPending then [m.op.replenishBid] else []
  reads : ∀ posted, m.given = some posted → Reads m.op m.mem posted (waiting m.cq ++ ring)
  resting : m.phase ≠ .running → m.given = none
  putBack : m.putBack = m.consumed
  used : m.used = m.consumed ++ m.reading ++ waiting m.cq

theorem Reads.relabel {op : AsyncReceive} {mem : Bytes} {posted : Posted}
    {slots : List (BitVec 16)} (reads : Reads op mem posted slots) (bufs : Nat → Buf)
    (tail : BitVec 16) (multishotLive : Bool) :
    Reads { op with bufs, tail, multishotLive } mem posted slots :=
  ⟨reads.len, reads.fits, reads.held, reads.packing, reads.last⟩

theorem buffers_nodup : buffers.Nodup := by
  refine List.Nodup.map_on ?_ List.nodup_range
  intro i first j second same
  have first : i < 256 := List.mem_range.mp first
  have second : j < 256 := List.mem_range.mp second
  have numbers := congrArg BitVec.toNat same
  rw [BitVec.toNat_ofNat, BitVec.toNat_ofNat] at numbers
  omega

section Buffers

variable {m : Machine} {cursor : Nat} {ring : List (BitVec 16)}

theorem Inv.nodup (inv : Inv m cursor ring) : (waiting m.cq ++ ring ++ m.reading).Nodup :=
  inv.buffers.nodup_iff.mpr buffers_nodup

theorem Inv.slots_nodup (inv : Inv m cursor ring) : (waiting m.cq ++ ring).Nodup :=
  inv.nodup.of_append_left

theorem Inv.length_le (inv : Inv m cursor ring) :
    ring.length + m.reading.length ≤ nrBufs.toNat := by
  have whole := inv.buffers.length_eq
  have all : AsyncReceive.buffers.length = nrBufs.toNat := by
    unfold AsyncReceive.buffers
    rw [List.length_map, List.length_range]
  rw [all, List.length_append, List.length_append] at whole
  omega

theorem Inv.relabel (inv : Inv m cursor ring) (multishotLive live : Bool)
    (queued submitted : Nat) {phase : Phase} (resting : phase ≠ .running → m.given = none) :
    Inv { m with op := { m.op with multishotLive }, live, queued, submitted, phase }
      cursor ring where
  entries := inv.entries
  cursor_lt := inv.cursor_lt
  empty := inv.empty
  tracks := inv.tracks
  buffers := inv.buffers
  pending := inv.pending
  reads posted given := (inv.reads posted given).relabel _ _ _
  resting := resting
  putBack := inv.putBack
  used := inv.used

/-- The kernel's ring is the list of its buffers, and it is empty when the counters meet. -/
theorem Inv.ring_eq (inv : Inv m cursor ring) :
    m.ring = ring ∧ (m.head = m.op.tail ↔ ring = []) := by
  obtain ⟨first, head, tail, entries⟩ := inv.entries
  have short : ring.length ≤ 256 := (Nat.le_add_right _ _).trans inv.length_le
  have distance : (m.op.tail - m.head).toNat = ring.length := by
    rw [head, tail, BitVec.toNat_sub, BitVec.toNat_ofNat, BitVec.toNat_ofNat]
    omega
  constructor
  · refine Eq.trans ?_ entries.bids
    unfold Machine.ring
    rw [distance]
    apply List.map_congr_left
    intro i _
    rw [head, ← BitVec.ofNat_add, entry_ofNat]
  · constructor
    · intro same
      rw [same, BitVec.sub_self] at distance
      exact List.eq_nil_of_length_eq_zero distance.symm
    · rintro rfl
      rw [head, tail]
      rfl

/-- The entry at the kernel's counter is that of its current buffer. -/
theorem Inv.current_eq {bid : BitVec 16} (inv : Inv m cursor (bid :: ring)) :
    m.current = packed m.op.bufMem cursor bid := by
  obtain ⟨first, head, _, entries⟩ := inv.entries
  unfold Machine.current
  rw [head, entry_ofNat]
  exact entries.1

/-- A read goes on beside what the kernel writes. -/
theorem Reads.write {op : AsyncReceive} {mem : Bytes} {posted : Posted}
    {slots : List (BitVec 16)} (reads : Reads op mem posted slots) (nodup : slots.Nodup)
    {cq : List Posted} (tracks : Tracks op.bufMem mem cursor ring cq op.curOffset.toNat slots)
    {bid : BitVec 16} (current : bid ∈ ring.head?) {bytes : List (BitVec 8)}
    (fits : cursor + bytes.length ≤ bufSize.toNat) :
    Reads op (mem.write (slot op.bufMem bid + cursor) bytes) posted slots := by
  refine ⟨reads.len, reads.fits, ?_, reads.packing, reads.last⟩
  refine (Bytes.read_write_outside ?_).trans reads.held
  by_cases same : op.bid = bid
  · cases more : posted.cqe.bufMore with
    | true =>
        obtain ⟨first, behind⟩ := reads.packing more
        have ahead := tracks.le_cursor nodup first (same ▸ current)
        rw [same]
        omega
    | false =>
        have member := tracks.mem_slots (List.mem_of_head? current)
        exact absurd (same ▸ member) (reads.last more).2
  · exact slot_apart same reads.fits fits

/-- The entry of a buffer after a receive that leaves it free space. -/
theorem packed_advance {bufMem count : Nat} (bid : BitVec 16)
    (inside : cursor + count ≤ bufSize.toNat) :
    { packed bufMem cursor bid with
      addr := (packed bufMem cursor bid).addr + count
      len := (packed bufMem cursor bid).len - BitVec.ofNat 32 count } =
    packed bufMem (cursor + count) bid := by
  have whole : bufSize.toNat = 4096 := rfl
  have len : BitVec.ofNat 32 (bufSize.toNat - cursor) - BitVec.ofNat 32 count =
      BitVec.ofNat 32 (bufSize.toNat - (cursor + count)) := by
    rw [whole] at inside ⊢
    apply BitVec.eq_of_toNat_eq
    rw [BitVec.toNat_sub, BitVec.toNat_ofNat, BitVec.toNat_ofNat, BitVec.toNat_ofNat]
    omega
  unfold packed
  rw [len, Nat.add_assoc]

theorem packed_len (bufMem : Nat) (bid : BitVec 16) (inside : cursor < bufSize.toNat) :
    (packed bufMem cursor bid).len.toNat = bufSize.toNat - cursor := by
  have whole : bufSize.toNat = 4096 := rfl
  unfold packed
  rw [whole] at inside ⊢
  exact Nat.mod_eq_of_lt (by omega)

section Receive

variable {bid : BitVec 16} {posted : Posted}

theorem Inv.written (inv : Inv m cursor (bid :: ring)) (positive : 0 < posted.bytes.length)
    (inside : cursor + posted.bytes.length ≤ bufSize.toNat)
    (size : posted.cqe.res = posted.bytes.length) (buffer : posted.cqe.bid = bid) :
    Tracks m.op.bufMem (m.mem.write (slot m.op.bufMem bid + cursor) posted.bytes) cursor
        (bid :: ring) m.cq m.op.curOffset.toNat (waiting m.cq ++ bid :: ring) ∧
      posted.At m.op.bufMem (m.mem.write (slot m.op.bufMem bid + cursor) posted.bytes)
        cursor :=
  ⟨inv.tracks.write inv.slots_nodup rfl inside, size, positive, buffer ▸ Bytes.read_write⟩

theorem Inv.receive_packing (inv : Inv m cursor (bid :: ring))
    (positive : 0 < posted.bytes.length)
    (inside : cursor + posted.bytes.length < bufSize.toNat)
    (size : posted.cqe.res = posted.bytes.length) (buffer : posted.cqe.bid = bid)
    (more : posted.cqe.bufMore = true) :
    Inv (m.receive posted) (cursor + posted.bytes.length) (bid :: ring) := by
  obtain ⟨first, head, tail, current, rest⟩ := inv.entries
  have short : ring.length + 1 ≤ nrBufs.toNat :=
    (Nat.le_add_right _ _).trans inv.length_le
  have whole : nrBufs.toNat = 256 := rfl
  obtain ⟨written, held⟩ := inv.written positive inside.le size buffer
  have free := packed_len m.op.bufMem bid inv.cursor_lt
  have unused : waiting (m.cq ++ [posted]) = waiting m.cq := by
    rw [waiting_append, waiting_cons, usedUp_packing more]
    exact List.append_nil _
  unfold Machine.receive
  rw [inv.current_eq, if_pos (by omega), packed_advance bid inside.le, head, entry_ofNat]
  constructor
  · refine ⟨first, rfl, tail, Function.update_self _ _ _, ?_⟩
    have kept := rest.update (first + nrBufs.toNat) (by omega) (by omega)
      (packed m.op.bufMem (cursor + posted.bytes.length) bid)
    rwa [Nat.add_mod_right] at kept
  · exact inside
  · exact nofun
  · rw [unused]
    refine written.post ?_
    subst buffer
    exact .packing held more inside .nil
  · rw [unused]
    exact inv.buffers
  · exact inv.pending
  · rw [unused]
    exact fun other given =>
      ((inv.reads other given).write inv.slots_nodup inv.tracks rfl inside.le).relabel _ _ _
  · exact inv.resting
  · exact inv.putBack
  · rw [unused]
    exact inv.used

theorem Inv.receive_last (inv : Inv m cursor (bid :: ring))
    (positive : 0 < posted.bytes.length)
    (inside : cursor + posted.bytes.length = bufSize.toNat)
    (size : posted.cqe.res = posted.bytes.length) (buffer : posted.cqe.bid = bid)
    (more : posted.cqe.bufMore = false) : Inv (m.receive posted) 0 ring := by
  obtain ⟨first, head, tail, current, rest⟩ := inv.entries
  obtain ⟨written, held⟩ := inv.written positive inside.le size buffer
  have free := packed_len m.op.bufMem bid inv.cursor_lt
  have used : waiting (m.cq ++ [posted]) = waiting m.cq ++ [bid] := by
    rw [waiting_append, waiting_cons, usedUp_last held.res_pos more, buffer]
    rfl
  have slots : waiting (m.cq ++ [posted]) ++ ring = waiting m.cq ++ bid :: ring := by
    rw [used, List.append_assoc, List.singleton_append]
  unfold Machine.receive
  rw [inv.current_eq, if_neg (by omega)]
  constructor
  · refine ⟨first + 1, ?_, ?_, rest⟩
    · rw [head]
      exact (BitVec.ofNat_add _ _).symm
    · rw [tail, List.length_cons, Nat.add_assoc, Nat.add_comm 1]
  · exact Nat.pos_of_ne_zero (by decide)
  · exact fun _ => rfl
  · rw [slots]
    refine written.post ?_
    subst buffer
    exact .last held more inside .nil
  · rw [slots]
    exact inv.buffers
  · exact inv.pending
  · rw [slots]
    exact fun other given =>
      ((inv.reads other given).write inv.slots_nodup inv.tracks rfl inside.le).relabel _ _ _
  · exact inv.resting
  · exact inv.putBack
  · change m.used ++ [bid] = _
    rw [used, inv.used, List.append_assoc]
    rfl

end Receive

theorem Inv.endMultishot (inv : Inv m cursor ring) {cqe : Cqe} (empty : cqe.res ≤ 0)
    (exhausted : cqe.res = -ENOBUFS → m.head = m.op.tail) :
    Inv (m.endMultishot cqe) cursor ring := by
  have unused : waiting (m.cq ++ [⟨cqe, []⟩]) = waiting m.cq := by
    rw [waiting_append, waiting_cons, usedUp_empty empty]
    exact List.append_nil _
  refine ⟨inv.entries, inv.cursor_lt, inv.empty, ?_, ?_, inv.pending, ?_, inv.resting,
    inv.putBack, ?_⟩ <;> unfold Machine.endMultishot <;> rw [unused]
  · refine inv.tracks.post ?_
    by_cases none : cqe.res = -ENOBUFS
    · have nothing := inv.ring_eq.2.mp (exhausted none)
      rw [inv.empty nothing]
      exact .noBuffers none .nil
    · exact .ended empty none .nil
  · exact inv.buffers
  · exact inv.reads
  · exact inv.used

theorem complete_noBuffers (op : AsyncReceive) {cqe : Cqe} (none : cqe.res = -ENOBUFS) :
    op.complete cqe = ({ op with multishotLive := false, curOffset := 0 }, .submit) :=
  if_pos none

theorem complete_ended (op : AsyncReceive) {cqe : Cqe} (empty : cqe.res ≤ 0)
    (other : cqe.res ≠ -ENOBUFS) : op.complete cqe = (op, .stop) := by
  unfold AsyncReceive.complete
  rw [if_neg other, if_pos empty]

/-- What `__complete` notes of a slice, before it looks at `IORING_CQE_F_BUF_MORE`. -/
def noted (op : AsyncReceive) (cqe : Cqe) : AsyncReceive :=
  { op with
    multishotLive := if cqe.more then op.multishotLive else false
    bid := cqe.bid
    len := BitVec.ofInt 32 cqe.res
    bufMore := cqe.bufMore
    offset := op.curOffset }

theorem complete_packing (op : AsyncReceive) {cqe : Cqe} (positive : 0 < cqe.res)
    (more : cqe.bufMore = true) :
    op.complete cqe =
      ({ noted op cqe with curOffset := op.curOffset + BitVec.ofInt 32 cqe.res }, .execute) := by
  have other : cqe.res ≠ -ENOBUFS := fun none => absurd (none ▸ positive) (by decide)
  unfold AsyncReceive.complete
  rw [if_neg other, if_neg (by omega)]
  exact if_pos more

theorem complete_last (op : AsyncReceive) {cqe : Cqe} (positive : 0 < cqe.res)
    (more : cqe.bufMore = false) :
    op.complete cqe =
      ({ noted op cqe with
        curOffset := 0, replenishPending := true, replenishBid := cqe.bid }, .execute) := by
  have other : cqe.res ≠ -ENOBUFS := fun none => absurd (none ▸ positive) (by decide)
  unfold AsyncReceive.complete
  rw [if_neg other, if_neg (by omega)]
  exact if_neg (by rw [more]; decide)

theorem toNat_ofInt {res : Int} {count : Nat} (size : res = count)
    (fits : count ≤ bufSize.toNat) : (BitVec.ofInt 32 res).toNat = count := by
  have whole : bufSize.toNat = 4096 := rfl
  rw [size, BitVec.ofInt_natCast, BitVec.toNat_ofNat]
  omega

section Complete

variable {posted : Posted} {rest : List Posted}

theorem Inv.take (inv : Inv m cursor ring) (cq : m.cq = posted :: rest)
    (resting : m.given = none) :
    m.op.replenishPending = false ∧
      (posted.usedUp ++ (waiting rest ++ ring)).Perm AsyncReceive.buffers ∧
      m.used = m.consumed ++ posted.usedUp ++ waiting rest := by
  have nothing : m.reading = [] := by
    unfold Machine.reading
    rw [resting]
    rfl
  have buffers := inv.buffers
  have pending := inv.pending
  have used := inv.used
  rw [nothing, cq, waiting_cons] at buffers used
  rw [List.append_nil, List.append_assoc] at buffers
  rw [List.append_nil, ← List.append_assoc] at used
  refine ⟨?_, buffers, used⟩
  rw [nothing] at pending
  cases due : m.op.replenishPending with
  | false => rfl
  | true =>
      rw [due] at pending
      exact absurd pending nofun

theorem Inv.skip (inv : Inv m cursor ring) (cq : m.cq = posted :: rest)
    (resting : m.given = none) (unused : posted.usedUp = [])
    (tracks : Tracks m.op.bufMem m.mem cursor ring rest m.op.curOffset.toNat
      (waiting rest ++ ring)) : Inv { m with cq := rest } cursor ring := by
  have nothing : m.reading = [] := by
    unfold Machine.reading
    rw [resting]
    rfl
  obtain ⟨_, buffers, used⟩ := inv.take cq resting
  rw [unused] at buffers used
  refine ⟨inv.entries, inv.cursor_lt, inv.empty, tracks, ?_, inv.pending, ?_, inv.resting,
    inv.putBack, ?_⟩
  · change (waiting rest ++ ring ++ m.reading).Perm _
    rw [nothing, List.append_nil]
    exact buffers
  · intro other given
    exact absurd (resting.symm.trans given) nofun
  · change m.used = m.consumed ++ m.reading ++ waiting rest
    rw [nothing]
    exact used

theorem Inv.resume (inv : Inv m cursor ring) (cq : m.cq = posted :: rest)
    (resting : m.given = none) {op : AsyncReceive} (bufs : op.bufs = m.op.bufs)
    (tail : op.tail = m.op.tail) (bufMem : op.bufMem = m.op.bufMem)
    (tracks : Tracks op.bufMem m.mem cursor ring rest op.curOffset.toNat
      (waiting rest ++ ring))
    (pending : posted.usedUp = if op.replenishPending then [op.replenishBid] else [])
    (reads : Reads op m.mem posted (waiting rest ++ ring)) :
    Inv { m with op, cq := rest, phase := .running, given := some posted } cursor ring := by
  obtain ⟨_, buffers, used⟩ := inv.take cq resting
  have reading : waiting [posted] = posted.usedUp := List.append_nil _
  constructor
  · rw [bufs, tail, bufMem]
    exact inv.entries
  · exact inv.cursor_lt
  · exact inv.empty
  · exact tracks
  · change (waiting rest ++ ring ++ waiting [posted]).Perm _
    rw [reading]
    exact List.perm_append_comm.trans buffers
  · exact reading.trans pending
  · intro other given
    obtain rfl := Option.some.inj given
    exact reads
  · exact fun other => absurd rfl other
  · exact inv.putBack
  · change m.used = m.consumed ++ waiting [posted] ++ waiting rest
    rw [reading]
    exact used

theorem Inv.complete (inv : Inv m cursor ring) (cq : m.cq = posted :: rest)
    (resting : m.given = none) : Inv ({ m with cq := rest }.complete posted) cursor ring := by
  obtain ⟨idle, buffers, _⟩ := inv.take cq resting
  have tracks := inv.tracks
  have whole : bufSize.toNat = 4096 := rfl
  rw [cq] at tracks
  unfold Machine.complete
  generalize known : m.op.curOffset.toNat = offset at tracks
  generalize waiting (posted :: rest) ++ ring = slots at tracks
  cases tracks with
  | packing held more inside tracks =>
      have slots := tracks.slots_eq
      have len := toNat_ofInt held.size (by omega)
      have onward : (m.op.curOffset + BitVec.ofInt 32 posted.cqe.res).toNat =
          offset + posted.bytes.length := by
        rw [BitVec.toNat_add, len, known]
        omega
      simp only [complete_packing m.op held.res_pos more]
      refine inv.resume cq resting rfl rfl rfl ?_ ?_ ?_
      · change Tracks _ _ _ _ _ (m.op.curOffset + BitVec.ofInt 32 posted.cqe.res).toNat _
        rw [onward, ← slots]
        exact tracks
      · change _ = if m.op.replenishPending then _ else _
        rw [usedUp_packing more, idle]
        rfl
      · refine ⟨len, ?_, ?_, fun _ => ?_, fun last => absurd (more.symm.trans last) nofun⟩
        · change m.op.curOffset.toNat + _ ≤ _
          rw [known]
          exact inside.le
        · change m.mem.read (_ + m.op.curOffset.toNat) _ = _
          rw [known]
          exact held.bytes
        · rw [← slots]
          refine ⟨rfl, ?_⟩
          change m.op.curOffset.toNat + _ ≤
            (m.op.curOffset + BitVec.ofInt 32 posted.cqe.res).toNat
          rw [onward, known]
  | last held more inside tracks =>
      have slots := tracks.slots_eq
      have len := toNat_ofInt held.size (by omega)
      have used := usedUp_last held.res_pos more
      rw [used] at buffers
      have nodup := buffers.nodup_iff.mpr buffers_nodup
      simp only [complete_last m.op held.res_pos more]
      refine inv.resume cq resting rfl rfl rfl ?_ ?_ ?_
      · rw [← slots]
        exact tracks
      · exact used
      · refine ⟨len, ?_, ?_, fun packing => absurd (packing.symm.trans more) nofun, fun _ => ?_⟩
        · change m.op.curOffset.toNat + _ ≤ _
          rw [known]
          exact inside.le
        · change m.mem.read (_ + m.op.curOffset.toNat) _ = _
          rw [known]
          exact held.bytes
        · exact ⟨buffers.mem_iff.mp List.mem_cons_self, (List.nodup_cons.mp nodup).1⟩
  | noBuffers exhausted tracks =>
      have slots := tracks.slots_eq
      have zero : m.op.curOffset = 0 := BitVec.eq_of_toNat_eq known
      have unused : posted.usedUp = [] := usedUp_empty (exhausted ▸ by decide)
      have skipped := inv.skip cq resting unused (by rw [known, ← slots]; exact tracks)
      simp only [complete_noBuffers m.op exhausted]
      rw [← zero]
      exact skipped.relabel false m.live (m.queued + 1) m.submitted inv.resting
  | ended empty other tracks =>
      have slots := tracks.slots_eq
      have skipped := inv.skip cq resting (usedUp_empty empty)
        (by rw [known, ← slots]; exact tracks)
      simp only [complete_ended m.op empty other]
      exact skipped

end Complete

theorem Inv.await (inv : Inv m cursor ring) :
    ∃ ringNext, Inv m.await cursor ringNext := by
  obtain ⟨first, head, tail, entries⟩ := inv.entries
  have pending := inv.pending
  have length := inv.length_le
  have buffers := inv.buffers
  unfold Machine.await AsyncReceive.awaitSuspend
  cases due : m.op.replenishPending with
  | false =>
      rw [due] at pending
      have nothing : m.reading = [] := pending
      rw [nothing] at buffers
      refine ⟨ring, ⟨first, head, tail, entries⟩, inv.cursor_lt, inv.empty, inv.tracks,
        buffers, ?_, nofun, fun _ => rfl, ?_, ?_⟩
      · change [] = if m.op.replenishPending then _ else _
        rw [due]
        rfl
      · change m.putBack ++ [] = m.consumed ++ m.reading
        rw [nothing, inv.putBack]
      · change m.used = m.consumed ++ m.reading ++ [] ++ waiting m.cq
        rw [List.append_nil]
        exact inv.used
  | true =>
      rw [due] at pending
      have last : m.reading = [m.op.replenishBid] := pending
      rw [last] at buffers length
      have short : ring.length + 1 ≤ nrBufs.toNat := length
      have appended := inv.tracks.putBack m.op.replenishBid
      rw [List.append_assoc] at appended buffers
      refine ⟨ring ++ [m.op.replenishBid], ⟨first, head, ?_, ?_⟩, inv.cursor_lt,
        fun none => absurd none (by simp), appended, ?_, rfl, nofun, fun _ => rfl, ?_, ?_⟩
      · change m.op.tail + 1 = _
        rw [tail, List.length_append, ← Nat.add_assoc]
        exact (BitVec.ofNat_add _ _).symm
      · change Entries m.op.bufMem (Function.update m.op.bufs (entry m.op.tail) _) _ _ _
        rw [tail, entry_ofNat]
        refine (entries.update _ (by omega) (by omega) _).append inv.empty ?_
        exact Function.update_self _ _ _
      · change (waiting m.cq ++ (ring ++ [m.op.replenishBid]) ++ []).Perm _
        rw [List.append_nil]
        exact buffers
      · change m.putBack ++ [m.op.replenishBid] = m.consumed ++ m.reading
        rw [last, inv.putBack]
      · change m.used = m.consumed ++ m.reading ++ [] ++ waiting m.cq
        rw [List.append_nil]
        exact inv.used

end Buffers

/-! ### The submissions -/

/-- The CQEs of one multishot: all but the last announce more, and the last one does while
it is live. -/
def Ends (live : Bool) : List Posted → Prop
  | [] => True
  | [posted] => posted.cqe.more = live
  | posted :: next :: rest => posted.cqe.more = true ∧ Ends live (next :: rest)

namespace Machine

/-- A multishot that is live or has CQEs not yet handled. -/
def kernel (m : Machine) : Nat := if m.live = true ∨ m.cq ≠ [] then 1 else 0

/-- A submission that the thread has still to make before it rests. -/
def thread (m : Machine) : Nat :=
  match m.phase with
  | .running => (!m.op.multishotLive).toNat
  | .leaving callback => callback.toNat
  | .idle => 0

end Machine

/-- The invariant of the submissions: there is one at most, and `__multishot_live_` knows
of it. -/
structure Armed (m : Machine) : Prop where
  ends : Ends m.live m.cq
  empty : ∀ posted ∈ m.cq, posted.cqe.res ≤ 0 → posted.cqe.more = false
  armed : 0 < m.submitted ∨ m.live = true ∨ m.cq ≠ [] → m.op.multishotLive = true
  once : m.queued + m.submitted + m.kernel + m.thread ≤ 1

section Submissions

variable {m next : Machine} {live : Bool} {cq rest : List Posted} {posted : Posted}

theorem Ends.post (ends : Ends true cq) : Ends posted.cqe.more (cq ++ [posted]) := by
  induction cq with
  | nil => exact rfl
  | cons first rest inductionHypothesis =>
      cases rest with
      | nil => exact ⟨ends, rfl⟩
      | cons second rest => exact ⟨ends.1, inductionHypothesis ends.2⟩

theorem Ends.tail (ends : Ends live (posted :: rest)) :
    Ends live rest ∧ (posted.cqe.more = true ↔ live = true ∨ rest ≠ []) := by
  cases rest with
  | nil =>
      have same : posted.cqe.more = live := ends
      exact ⟨trivial, by simp [same]⟩
  | cons second rest => exact ⟨ends.2, by simp [ends.1]⟩

theorem Armed.kernel_le (armed : Armed m) (busy : m.live = true ∨ m.cq ≠ []) :
    m.queued = 0 ∧ m.submitted = 0 ∧ m.thread = 0 ∧ m.op.multishotLive = true := by
  have once := armed.once
  have one : m.kernel = 1 := if_pos busy
  exact ⟨by omega, by omega, by omega, armed.armed (.inr busy)⟩

theorem Armed.post (armed : Armed m) (live : m.live = true)
    (empty : posted.cqe.res ≤ 0 → posted.cqe.more = false)
    (liveNext : next.live = posted.cqe.more) (cq : next.cq = m.cq ++ [posted])
    (multishotLive : next.op.multishotLive = m.op.multishotLive)
    (phase : next.phase = m.phase) (queued : next.queued = m.queued)
    (submitted : next.submitted = m.submitted) : Armed next := by
  obtain ⟨unqueued, unsubmitted, none, known⟩ := armed.kernel_le (.inl live)
  constructor
  · rw [liveNext, cq]
    exact (live ▸ armed.ends).post
  · intro other member
    rw [cq] at member
    rcases List.mem_append.mp member with old | new
    · exact armed.empty other old
    · obtain rfl := List.mem_singleton.mp new
      exact empty
  · rw [multishotLive]
    exact fun _ => known
  · have thread : next.thread = m.thread := by
      unfold Machine.thread
      rw [phase, multishotLive]
    have one : next.kernel = 1 := if_pos (.inr (by rw [cq]; simp))
    omega

/-- A CQE is taken from the queue; the last one of a multishot leaves nothing behind it. -/
theorem Armed.take (armed : Armed m) (cq : m.cq = posted :: rest) :
    Ends m.live rest ∧ (∀ other ∈ rest, other.cqe.res ≤ 0 → other.cqe.more = false) ∧
      (posted.cqe.more = true ↔ m.live = true ∨ rest ≠ []) ∧
      (posted.cqe.res ≤ 0 → posted.cqe.more = false) := by
  have ends := armed.ends
  have empty := armed.empty
  rw [cq] at ends empty
  exact ⟨ends.tail.1, fun other member => empty other (List.mem_cons_of_mem _ member),
    ends.tail.2, empty posted List.mem_cons_self⟩

/-- The coroutine is resumed: it submits again if the multishot is over. -/
theorem Armed.resume (armed : Armed m) (cq : m.cq = posted :: rest) {op : AsyncReceive}
    (known : op.multishotLive = if posted.cqe.more then m.op.multishotLive else false) :
    Armed { m with op, cq := rest, phase := .running, given := some posted } := by
  obtain ⟨unqueued, unsubmitted, _, live⟩ := armed.kernel_le (.inr (by rw [cq]; nofun))
  obtain ⟨ends, empty, more, _⟩ := armed.take cq
  refine ⟨ends, empty, ?_, ?_⟩
  · rintro (one | busy)
    · have one : 0 < m.submitted := one
      omega
    · rw [known, if_pos (more.mpr busy)]
      exact live
  · have value : posted.cqe.more = decide (m.live = true ∨ rest ≠ []) := by
      rw [Bool.eq_iff_iff, decide_eq_true_iff]
      exact more
    simp only [Machine.kernel, Machine.thread, known, live, unqueued, unsubmitted, value]
    by_cases busy : m.live = true ∨ rest ≠ [] <;> simp [busy]

theorem Armed.complete (armed : Armed m) (idle : m.phase = .idle)
    (cq : m.cq = posted :: rest) : Armed ({ m with cq := rest }.complete posted) := by
  obtain ⟨unqueued, unsubmitted, _, _⟩ := armed.kernel_le (.inr (by rw [cq]; nofun))
  obtain ⟨ends, empty, more, last⟩ := armed.take cq
  have finished (res : posted.cqe.res ≤ 0) : ¬(m.live = true ∨ rest ≠ []) := by
    rw [← more, last res]
    exact nofun
  have nothing (finished : ¬(m.live = true ∨ rest ≠ [])) :
      ¬(0 < m.submitted ∨ m.live = true ∨ rest ≠ []) :=
    fun busy => busy.elim (by omega) finished
  unfold Machine.complete
  by_cases exhausted : posted.cqe.res = -ENOBUFS
  · have finished := finished (exhausted ▸ by decide)
    simp only [complete_noBuffers m.op exhausted]
    refine ⟨ends, empty, fun busy => absurd busy (nothing finished), ?_⟩
    simp [Machine.kernel, Machine.thread, idle, if_neg finished, unqueued, unsubmitted]
  by_cases res : posted.cqe.res ≤ 0
  · simp only [complete_ended m.op res exhausted]
    refine ⟨ends, empty, fun busy => absurd busy (nothing (finished res)), ?_⟩
    simp [Machine.kernel, Machine.thread, idle, if_neg (finished res), unqueued, unsubmitted]
  have positive : 0 < posted.cqe.res := by omega
  cases packing : posted.cqe.bufMore with
  | true =>
      simp only [complete_packing m.op positive packing]
      exact armed.resume cq rfl
  | false =>
      simp only [complete_last m.op positive packing]
      exact armed.resume cq rfl

theorem Armed.await (armed : Armed m) (running : m.phase = .running) : Armed m.await := by
  have live : m.await.op.multishotLive = m.op.multishotLive := by
    unfold Machine.await AsyncReceive.awaitSuspend
    cases m.op.replenishPending <;> rfl
  have thread : m.await.thread = m.thread := by
    unfold Machine.thread
    rw [running]
    change (!m.await.op.multishotLive).toNat = _
    rw [live]
  refine ⟨armed.ends, armed.empty, ?_, ?_⟩
  · rw [live]
    exact armed.armed
  · rw [thread]
    exact armed.once

theorem Armed.leave (armed : Armed m) {callback : Bool} (leaving : m.phase = .leaving callback) :
    Armed (m.leave callback) := by
  refine ⟨armed.ends, armed.empty, armed.armed, ?_⟩
  have once := armed.once
  have thread : m.thread = callback.toNat := by
    unfold Machine.thread
    rw [leaving]
  rw [thread] at once
  cases callback with
  | false => exact once
  | true =>
      change m.queued + 1 + m.submitted + m.kernel + 0 ≤ 1
      change m.queued + m.submitted + m.kernel + 1 ≤ 1 at once
      omega

theorem Armed.flush (armed : Armed m) (idle : m.phase = .idle) (queued : 0 < m.queued) :
    Armed { m with
      op := m.op.submit
      queued := m.queued - 1
      submitted := m.submitted + 1 } := by
  refine ⟨armed.ends, armed.empty, fun _ => rfl, ?_⟩
  have once := armed.once
  have resting : Machine.thread { m with
      op := m.op.submit
      queued := m.queued - 1
      submitted := m.submitted + 1 } = 0 := by
    unfold Machine.thread
    rw [idle]
  rw [resting]
  change m.queued - 1 + (m.submitted + 1) + m.kernel + 0 ≤ 1
  omega

theorem Armed.arm (armed : Armed m) (submitted : 0 < m.submitted) :
    Armed { m with submitted := m.submitted - 1, live := true } := by
  have once := armed.once
  have rests : ¬(m.live = true ∨ m.cq ≠ []) := by
    intro busy
    have one := (armed.kernel_le busy).2.1
    omega
  have none : m.cq = [] := by
    by_contra some
    exact rests (.inr some)
  refine ⟨?_, armed.empty, fun _ => armed.armed (.inl submitted), ?_⟩
  · rw [none]
    trivial
  · have one : Machine.kernel { m with submitted := m.submitted - 1, live := true } = 1 :=
      if_pos (.inl rfl)
    rw [one]
    change m.queued + (m.submitted - 1) + 1 + m.thread ≤ 1
    omega

end Submissions

section Runs

variable {m next : Machine} {cursor : Nat} {ring : List (BitVec 16)}

theorem Inv.step (inv : Inv m cursor ring) {event : Event} (step : Step m event next) :
    ∃ cursor ring, Inv next cursor ring := by
  cases step with
  | arm submitted =>
      exact ⟨cursor, ring, inv.relabel m.op.multishotLive true m.queued _ inv.resting⟩
  | receive posted live free positive fits size buffer more =>
      cases ring with
      | nil => exact absurd (inv.ring_eq.2.mpr rfl) free
      | cons bid ring =>
          rw [inv.current_eq] at fits buffer more
          rw [packed_len m.op.bufMem bid inv.cursor_lt] at fits more
          have below := inv.cursor_lt
          by_cases packing : posted.bytes.length < bufSize.toNat - cursor
          · exact ⟨_, _, inv.receive_packing positive (by omega) size buffer
              (more.trans (decide_eq_true packing))⟩
          · exact ⟨_, _, inv.receive_last positive (by omega) size buffer
              (more.trans (decide_eq_false packing))⟩
  | noBuffers cqe live exhausted none last =>
      exact ⟨cursor, ring, inv.endMultishot (none ▸ by decide) fun _ => exhausted⟩
  | finish cqe live empty other last =>
      exact ⟨cursor, ring, inv.endMultishot empty fun none => absurd none other⟩
  | flush idle queued =>
      exact ⟨cursor, ring, inv.relabel true m.live _ _ inv.resting⟩
  | complete idle cq =>
      exact ⟨cursor, ring, inv.complete cq (inv.resting (by rw [idle]; nofun))⟩
  | await running =>
      obtain ⟨ringNext, inv⟩ := inv.await
      exact ⟨cursor, ringNext, inv⟩
  | leave leaving =>
      have resting := inv.resting (by rw [leaving]; nofun)
      exact ⟨cursor, ring, inv.relabel m.op.multishotLive m.live _ m.submitted
        fun _ => resting⟩

theorem Armed.step (armed : Armed m) {event : Event} (step : Step m event next) :
    Armed next := by
  cases step with
  | arm submitted => exact armed.arm submitted
  | receive posted live free positive fits size buffer more =>
      have empty : posted.cqe.res ≤ 0 → posted.cqe.more = false := by
        intro none
        omega
      unfold Machine.receive
      split <;> exact armed.post live empty rfl rfl rfl rfl rfl rfl
  | noBuffers cqe live exhausted none last =>
      have ended : (m.endMultishot cqe).live = (Posted.mk cqe []).cqe.more := last.symm
      exact armed.post live (fun _ => last) ended rfl rfl rfl rfl rfl
  | finish cqe live empty other last =>
      have ended : (m.endMultishot cqe).live = (Posted.mk cqe []).cqe.more := last.symm
      exact armed.post live (fun _ => last) ended rfl rfl rfl rfl rfl
  | flush idle queued => exact armed.flush idle queued
  | complete idle cq => exact armed.complete idle cq
  | await running => exact armed.await running
  | leave leaving => exact armed.leave leaving

/-- The loop of `_M_setup_ring` writes every entry. -/
theorem foldl_update {bufs : Nat → Buf} (content : Nat → Buf) {count i : Nat}
    (inside : i < count) :
    (List.range count).foldl (fun bufs i => Function.update bufs i (content i)) bufs i =
      content i := by
  induction count with
  | zero => exact absurd inside (Nat.not_lt_zero i)
  | succ count inductionHypothesis =>
      rw [List.range_succ, List.foldl_append, List.foldl_cons, List.foldl_nil,
        Function.update_apply]
      split
      · rename_i same
        rw [same]
      · exact inductionHypothesis (by omega)

theorem entries_of_whole {bufMem : Nat} {bufs : Nat → Buf} {first count : Nat}
    (fits : first + count ≤ nrBufs.toNat)
    (filled : ∀ i < nrBufs.toNat, bufs i = whole bufMem (BitVec.ofNat 16 i)) :
    Entries bufMem bufs first 0 ((List.range' first count).map (BitVec.ofNat 16)) := by
  induction count generalizing first with
  | zero => trivial
  | succ count inductionHypothesis =>
      rw [List.range'_succ, List.map_cons]
      refine ⟨?_, inductionHypothesis (by omega)⟩
      rw [Nat.mod_eq_of_lt (by omega)]
      exact filled first (by omega)

theorem setupRing_bufs (bufMem : Nat) {i : Nat} (inside : i < nrBufs.toNat) :
    (setupRing bufMem).bufs i = whole bufMem (BitVec.ofNat 16 i) := by
  unfold setupRing
  apply foldl_update
  exact inside

theorem inv_init (bufMem : Nat) (mem : Bytes) :
    Inv { op := setupRing bufMem, mem } 0 buffers where
  entries := by
    refine ⟨0, rfl, ?_, ?_⟩
    · have length : buffers.length = nrBufs.toNat := by simp [buffers]
      rw [length, Nat.zero_add]
      rfl
    · have entries := entries_of_whole (Nat.zero_add _).le fun i =>
        setupRing_bufs bufMem
      rwa [← List.range_eq_range'] at entries
  cursor_lt := Nat.pos_of_ne_zero (by decide)
  empty _ := rfl
  tracks := .nil
  buffers := by
    change (([] : List (BitVec 16)) ++ AsyncReceive.buffers ++ []).Perm _
    rw [List.append_nil, List.nil_append]
  pending := rfl
  reads _ given := absurd given nofun
  resting _ := rfl
  putBack := rfl
  used := rfl

theorem armed_init (bufMem : Nat) (mem : Bytes) : Armed { op := setupRing bufMem, mem } where
  ends := trivial
  empty _ member := absurd member List.not_mem_nil
  armed busy := by
    rcases busy with one | live | posted
    · exact absurd one (Nat.lt_irrefl 0)
    · exact absurd live nofun
    · exact absurd rfl posted
  once := Nat.le_refl 1

theorem inv_of_reachable (reachable : system.Reachable m) :
    (∃ cursor ring, Inv m cursor ring) ∧ Armed m := by
  induction reachable with
  | init initial =>
      obtain ⟨bufMem, mem, rfl⟩ := initial
      exact ⟨⟨0, buffers, inv_init bufMem mem⟩, armed_init bufMem mem⟩
  | step _ step inductionHypothesis =>
      obtain ⟨⟨cursor, ring, inv⟩, armed⟩ := inductionHypothesis
      exact ⟨inv.step step, armed.step step⟩

theorem Inv.inside (inv : Inv m cursor ring) {posted : Posted}
    (given : m.given = some posted) :
    m.op.bid ∈ AsyncReceive.buffers ∧ slot m.op.bufMem m.op.bid ≤ m.op.awaitResume.1 ∧
      m.op.awaitResume.1 + m.op.awaitResume.2.toNat ≤
        slot m.op.bufMem m.op.bid + bufSize.toNat := by
  have reads := inv.reads posted given
  have len := reads.len
  have fits := reads.fits
  refine ⟨?_, Nat.le_add_right _ _, ?_⟩
  · cases more : posted.cqe.bufMore with
    | true =>
        have member := List.mem_of_head? (reads.packing more).1
        exact inv.buffers.mem_iff.mp (List.mem_append_left _ member)
    | false => exact (reads.last more).1
  · change slot m.op.bufMem m.op.bid + m.op.offset.toNat + m.op.len.toNat ≤ _
    omega

/-- In every run. -/
theorem delivers (reachable : system.Reachable m) : Delivers m := by
  obtain ⟨⟨cursor, ring, inv⟩, armed⟩ := inv_of_reachable reachable
  constructor
  · intro posted given
    have reads := inv.reads posted given
    change m.mem.read (slot m.op.bufMem m.op.bid + m.op.offset.toNat) m.op.len.toNat = _
    rw [reads.len]
    exact reads.held
  · exact fun posted given => inv.inside given
  · rw [inv.ring_eq.1]
    exact inv.buffers
  · exact inv.putBack
  · exact inv.used
  · have once := armed.once
    have live : m.live.toNat ≤ m.kernel := by
      cases live : m.live with
      | false => exact Nat.zero_le _
      | true =>
          have one : m.kernel = 1 := if_pos (.inl live)
          exact one.symm.le
    omega

end Runs

/-- A receive that uses the buffer up. -/
def Machine.usesUp (m : Machine) (posted : Posted) : Machine :=
  { m with
    mem := m.mem.write m.current.addr posted.bytes
    cq := m.cq ++ [posted]
    live := posted.cqe.more
    head := m.head + 1
    used := m.used ++ [m.current.bid] }

theorem receive_usesUp (m : Machine) (posted : Posted)
    (full : posted.bytes.length = m.current.len.toNat) : m.receive posted = m.usesUp posted := by
  rw [Machine.receive, if_neg (by omega)]
  rfl

/-- As many bytes as a buffer has room for behind three. -/
@[irreducible]
def remainder : List (BitVec 8) := List.replicate 4093 9

theorem remainder_length : remainder.length = 4093 := by
  unfold remainder
  exact List.length_replicate

set_option maxRecDepth 4000 in
/-- Two slices use the first buffer up, and it is put back before the third, which is in the
second buffer, is read. -/
theorem delivers_third : ∃ m : Machine, system.Reachable m ∧
    m.given = some ⟨⟨0, 2, 65554⟩, [4, 5]⟩ ∧ m.used = [0] ∧ m.putBack = [0] ∧ Delivers m := by
  have start : system.Reachable { op := setupRing 0, mem := fun _ => 0 } := .init ⟨0, _, rfl⟩
  have queued := (start.step (.await rfl)).step (.leave rfl)
  have live := (queued.step (.flush rfl (by decide))).step (.arm (by decide))
  have first := live.step (.receive ⟨⟨0, 3, 18⟩, [1, 2, 3]⟩ rfl (by decide) (by decide)
    (by decide) rfl (by decide) (by decide))
  have read := ((first.step (.complete rfl rfl)).step (.await rfl)).step (.leave rfl)
  have rest := read.step (.receive ⟨⟨0, 4093, 2⟩, remainder⟩ rfl (by decide)
    (by rw [remainder_length]; decide) (by rw [remainder_length]; decide)
    (by rw [remainder_length]; rfl) (by decide) (by rw [remainder_length]; decide))
  rw [receive_usesUp _ _ (by rw [remainder_length]; decide)] at rest
  have done := rest.step (@Step.complete _ ⟨⟨0, 4093, 2⟩, remainder⟩ [] rfl rfl)
  have again := done.step (.await (by decide +kernel))
  have usedUp := again.step (@Step.leave _ false (by decide +kernel))
  have third := usedUp.step (.receive ⟨⟨0, 2, 65554⟩, [4, 5]⟩ (by decide +kernel)
    (by decide +kernel) (by decide) (by decide +kernel) (by decide) (by decide +kernel)
    (by decide +kernel))
  have resumed := third.step
    (@Step.complete _ ⟨⟨0, 2, 65554⟩, [4, 5]⟩ [] (by decide +kernel) (by decide +kernel))
  exact ⟨_, resumed, by decide +kernel, by decide +kernel, by decide +kernel, delivers resumed⟩

end NgrCore.AsyncReceive
