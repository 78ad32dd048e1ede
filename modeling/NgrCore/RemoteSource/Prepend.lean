import Mathlib.Data.List.Induction
import Mathlib.Data.List.Perm.Basic
import NgrCore.RemoteSource.SingleThread

/-!
Owns the bulk prepend of a new mapping under a single thread: the state of the ring over
every run, and exactly when `_M_prepend` ends with each block in the ring once.
-/

namespace NgrCore.RemoteSource.SingleThread

open NgrCore.Library NgrCore.IntrusiveQueue

section Lists

variable {es : List Nat} {e : Nat}

theorem flatMap_update_of_not_mem {f : Nat → List Addr} {added : List Addr} (outside : e ∉ es) :
    es.flatMap (Function.update f e added) = es.flatMap f :=
  List.flatMap_congr fun _ member =>
    Function.update_of_ne (ne_of_mem_of_not_mem member outside) _ _

theorem flatMap_update_perm {f : Nat → List Addr} (added : List Addr) (distinct : es.Nodup)
    (member : e ∈ es) (none : f e = []) :
    (es.flatMap (Function.update f e added)).Perm (added ++ es.flatMap f) := by
  induction es with
  | nil => cases member
  | cons first rest inductionHypothesis =>
      obtain ⟨outside, others⟩ := List.nodup_cons.mp distinct
      rw [List.flatMap_cons, List.flatMap_cons]
      by_cases same : first = e
      · subst same
        rw [Function.update_self, flatMap_update_of_not_mem outside, none, List.nil_append]
      · rw [Function.update_of_ne same]
        have later := inductionHypothesis others
          ((List.mem_cons.mp member).resolve_left (Ne.symm same))
        exact (later.append_left _).trans (List.perm_append_comm_assoc ..)

end Lists

/-- The blocks of every entry, front first; no block is in two entries. -/
structure Stored (s : Remote) (contents : Nat → List Addr) : Prop where
  chain : ∀ e, Chain s.next (s.ring e).head (contents e)
  n : ∀ e, (s.ring e).n = BitVec.ofNat 64 (contents e).length
  short : ∀ e, (contents e).length ≤ T
  apart : ∀ e f, e ≠ f → ∀ blk ∈ contents e, blk ∉ contents f

section Entries

variable {s : Remote} {contents : Nat → List Addr} {e : Nat}

theorem Stored.toNat_n (stored : Stored s contents) (e : Nat) :
    (s.ring e).n.toNat = (contents e).length := by
  have short := stored.short e
  unfold T at short
  rw [stored.n, BitVec.toNat_ofNat]
  omega

theorem Stored.full_iff (stored : Stored s contents) (e : Nat) :
    (s.ring e).n = BitVec.ofNat 64 T ↔ (contents e).length = T := by
  rw [BitVec.toNat_eq, stored.toNat_n]
  rfl

theorem Stored.zero_iff (stored : Stored s contents) (e : Nat) :
    (s.ring e).n = 0 ↔ contents e = [] := by
  rw [BitVec.toNat_eq, stored.toNat_n, ← List.length_eq_zero_iff]
  rfl

/-- Links that agree on the blocks stored. -/
theorem Stored.congr {after : Remote} (stored : Stored s contents) (ring : after.ring = s.ring)
    (agree : ∀ e, ∀ blk ∈ contents e, after.next blk = s.next blk) : Stored after contents where
  chain e := by
    rw [ring]
    exact (stored.chain e).congr (agree e)
  n e := ring ▸ stored.n e
  short := stored.short
  apart := stored.apart

/-- One entry gets other blocks; the links of the blocks of the others are as before. -/
theorem Stored.update {after : Remote} {blocks : List Addr} {head : Option Addr}
    (stored : Stored s contents)
    (ring : after.ring = Function.update s.ring e ⟨head, BitVec.ofNat 64 blocks.length⟩)
    (chain : Chain after.next head blocks) (short : blocks.length ≤ T)
    (agree : ∀ f, f ≠ e → ∀ blk ∈ contents f, after.next blk = s.next blk)
    (apart : ∀ f, f ≠ e → ∀ blk ∈ contents f, blk ∉ blocks) :
    Stored after (Function.update contents e blocks) where
  chain f := by
    rw [ring]
    by_cases same : f = e
    · subst same
      rw [Function.update_self, Function.update_self]
      exact chain
    · rw [Function.update_of_ne same, Function.update_of_ne same]
      exact (stored.chain f).congr (agree f same)
  n f := by
    rw [ring]
    by_cases same : f = e
    · subst same
      rw [Function.update_self, Function.update_self]
    · rw [Function.update_of_ne same, Function.update_of_ne same]
      exact stored.n f
  short f := by
    by_cases same : f = e
    · subst same
      rw [Function.update_self]
      exact short
    · rw [Function.update_of_ne same]
      exact stored.short f
  apart f g differ blk := by
    by_cases first : f = e
    · subst first
      rw [Function.update_self, Function.update_of_ne differ.symm]
      exact fun member other => apart g differ.symm blk other member
    · rw [Function.update_of_ne first]
      by_cases second : g = e
      · subst second
        rw [Function.update_self]
        exact apart f first blk
      · rw [Function.update_of_ne second]
        exact stored.apart f g differ blk

end Entries

section Piece

variable {s : Remote} {contents : Nat → List Addr} {ptr : List Addr} {k : Nat}
  {blk : IntrusiveQueue Addr}

/-- What a round of `_M_prepend` begins with. -/
structure Ready (s : Remote) (contents : Nat → List Addr) (ptr : List Addr) (k : Nat)
    (blk : IntrusiveQueue Addr) : Prop where
  stored : Stored s contents
  length : ptr.length = M
  queue : Represents s.next blk (ptr.drop k)
  apart : ∀ e, ∀ b ∈ contents e, b ∉ ptr.drop k

theorem Ready.full (ready : Ready s contents ptr k blk)
    (full : (contents (slot s.head)).length = T) :
    s.prependPiece ptr k blk = .error .spins := by
  rw [Remote.prependPiece, if_pos ((ready.stored.full_iff _).mpr full)]

/-- The last index of a piece that is longer than the list of blocks. -/
theorem Ready.outOfBounds (ready : Ready s contents ptr k blk)
    (notFull : (contents (slot s.head)).length ≠ T)
    (past : ptr.length < k + (T - (contents (slot s.head)).length)) :
    s.prependPiece ptr k blk = .error .outOfBounds := by
  have pieces : room (s.ring (slot s.head)).n.toNat = T - (contents (slot s.head)).length := by
    rw [ready.stored.toNat_n, room_eq (ready.stored.short _)]
  rw [Remote.prependPiece, if_neg ((ready.stored.full_iff _).not.mpr notFull)]
  simp only [pieces]
  rw [List.getElem?_eq_none (by omega)]

theorem head_publish {after : Remote} (published : after.state = s.state + headStride) :
    after.head = s.head + 1 := by
  rw [Remote.head, Remote.head, published]
  unfold convert headStride
  bv_omega

theorem Ready.piece (ready : Ready s contents ptr k blk)
    (notFull : (contents (slot s.head)).length ≠ T) {r : Nat}
    (pieces : r = T - (contents (slot s.head)).length) (fits : k + r ≤ ptr.length) :
    ∃ after rest, s.prependPiece ptr k blk = .ok (after, k + r, rest) ∧
      Ready after (Function.update contents (slot s.head)
        ((ptr.drop k).take r ++ contents (slot s.head))) ptr (k + r) rest ∧
      after.state = s.state + headStride := by
  have short := ready.stored.short (slot s.head)
  have positive : 0 < r := by omega
  have whole : (ptr.drop k).take r ++ ptr.drop (k + r) = ptr.drop k := by
    rw [← List.drop_drop]
    exact List.take_append_drop r _
  have long : ((ptr.drop k).take r).length = r := by
    rw [List.length_take, List.length_drop]
    omega
  have source := ready.queue
  rw [← whole] at source
  have distinct := source.1.nodup
  have rest := ready.apart
  rw [← whole] at rest
  generalize segmentEq : (ptr.drop k).take r = segment at *
  have some : segment ≠ [] := by
    rintro rfl
    exact absurd long (Nat.ne_of_lt positive)
  obtain ⟨start, starts⟩ := Option.ne_none_iff_exists'.mp (List.head?_eq_none_iff.not.mpr some)
  obtain ⟨stop, stops⟩ := Option.ne_none_iff_exists'.mp (List.getLast?_eq_none_iff.not.mpr some)
  have stopIn := List.mem_of_getLast? stops
  have last : ptr[k + r - 1]? = Option.some stop := by
    rw [List.getLast?_eq_getElem?, long, ← segmentEq, List.getElem?_take_of_lt (by omega),
      List.getElem?_drop] at stops
    rw [← stops]
    congr 1
    omega
  have sentinel : (if k + r < M then ptr[k + r]? else none) = (ptr.drop (k + r)).head? := by
    rw [List.head?_drop, ← ready.length]
    split
    · rfl
    · rw [List.getElem?_eq_none (by omega)]
  have room : room (s.ring (slot s.head)).n.toNat = r := by
    rw [ready.stored.toNat_n, room_eq short, pieces]
  have ran : s.prependPiece ptr k blk = .ok ({
      next := Function.update s.next stop (s.ring (slot s.head)).head
      ring := Function.update s.ring (slot s.head) ⟨Option.some start, BitVec.ofNat 64 T⟩
      state := s.state + headStride }, k + r,
        ⟨(ptr.drop (k + r)).head?,
          if (ptr.drop (k + r)).head? = none then none else blk.tail⟩) := by
    rw [Remote.prependPiece, if_neg ((ready.stored.full_iff _).not.mpr notFull)]
    simp only [room, last, sentinel, splice_front source starts stops]
  have outside : ∀ e, stop ∉ contents e := fun e inside =>
    rest e stop inside (List.mem_append_left _ stopIn)
  have total : (segment ++ contents (slot s.head)).length = T := by
    rw [List.length_append, long]
    omega
  refine ⟨_, _, ran, ⟨?_, ready.length, ?_, ?_⟩, rfl⟩
  · refine ready.stored.update (by rw [total]) ?_ (Nat.le_of_eq total) ?_ ?_
    · have begun := source.1
      rw [source.1.head_eq, List.head?_append, starts] at begun
      refine begun.redirect stops ?_ fun node _ differs => Function.update_of_ne differs _ _
      dsimp only
      rw [Function.update_self]
      exact (ready.stored.chain _).update _ (outside _)
    · intro f _ b inside
      exact Function.update_of_ne (ne_of_mem_of_not_mem inside (outside f)) _ _
    · intro f differs b inside
      rw [List.mem_append, not_or]
      exact ⟨fun mine => rest f b inside (List.mem_append_left _ mine),
        ready.stored.apart f _ differs b inside⟩
  · refine source.rest.congr fun node inside => Function.update_of_ne ?_ _ _
    rintro rfl
    exact (List.nodup_append.mp distinct).2.2 node stopIn node inside rfl
  · intro e b inside later
    by_cases same : e = slot s.head
    · subst same
      rw [Function.update_self] at inside
      rcases List.mem_append.mp inside with mine | stored
      · exact (List.nodup_append.mp distinct).2.2 b mine b later rfl
      · exact rest _ b stored (List.mem_append_right _ later)
    · rw [Function.update_of_ne same] at inside
      exact rest e b inside (List.mem_append_right _ later)

end Piece

section Loop

variable {s : Remote} {contents : Nat → List Addr} {ptr : List Addr} {k : Nat}
  {blk : IntrusiveQueue Addr}

theorem slot_add_ne (h : BitVec 32) {i j : Nat} (less : i < j) (small : j < K) :
    slot (h + BitVec.ofNat 32 j) ≠ slot (h + BitVec.ofNat 32 i) := by
  have size : K = 64 := rfl
  rw [slot_eq, slot_eq, size, BitVec.toNat_add, BitVec.toNat_add, BitVec.toNat_ofNat,
    BitVec.toNat_ofNat]
  omega

theorem slot_lt (h : BitVec 32) : slot h < K := by
  rw [slot_eq]
  exact Nat.mod_lt _ (by decide)

theorem head_add_zero (h : BitVec 32) : h + BitVec.ofNat 32 0 = h := by simp

theorem head_add_succ (h : BitVec 32) (j : Nat) :
    h + BitVec.ofNat 32 (j + 1) = h + 1 + BitVec.ofNat 32 j := by
  rw [BitVec.ofNat_add, BitVec.add_comm (BitVec.ofNat 32 j), ← BitVec.add_assoc]
  rfl

/-- Batches put into the entries from head on: each is full, no other entry changes, and
every block is in one of them. -/
structure Filled (s : Remote) (contents : Nat → List Addr) (blocks : List Addr) (m : Nat)
    (after : Remote) (added : Nat → List Addr) : Prop where
  stored : Stored after fun e => added e ++ contents e
  once : ((List.range K).flatMap added).Perm blocks
  full : ∀ j < m, (added (slot (s.head + BitVec.ofNat 32 j))).length = T
  others : ∀ e, (∀ j < m, e ≠ slot (s.head + BitVec.ofNat 32 j)) → added e = []
  state : after.state = s.state + BitVec.ofNat 64 m

theorem Ready.isEmpty_iff (ready : Ready s contents ptr k blk) :
    blk.isEmpty = true ↔ ptr.length ≤ k := by
  rw [ready.queue.isEmpty_iff, List.drop_eq_nil_iff]

theorem prependLoop_done {fuel : Nat} (done : blk.isEmpty = true) :
    Remote.prependLoop ptr fuel s k blk = .ok s := by
  cases fuel with
  | zero => rw [Remote.prependLoop, if_pos done]
  | succ fuel => rw [Remote.prependLoop, if_pos done]

theorem prependLoop_succ {fuel : Nat} (more : ¬blk.isEmpty = true) :
    Remote.prependLoop ptr (fuel + 1) s k blk =
      (s.prependPiece ptr k blk).bind fun piece =>
        Remote.prependLoop ptr fuel piece.1 piece.2.1 piece.2.2 := by
  rw [Remote.prependLoop, if_neg more]
  rfl

/-- Enough empty entries take whole batches. -/
theorem prependLoop_spec (m : Nat) : ∀ {s : Remote} {contents : Nat → List Addr} {k : Nat}
    {blk : IntrusiveQueue Addr} {fuel : Nat}, Ready s contents ptr k blk →
    k + T * m = ptr.length → (∀ j < m, contents (slot (s.head + BitVec.ofNat 32 j)) = []) →
    m < K → m ≤ fuel → ∃ after added, Remote.prependLoop ptr fuel s k blk = .ok after ∧
      Filled s contents (ptr.drop k) m after added := by
  induction m with
  | zero =>
      intro s contents k blk fuel ready left _ _ _
      have done : ptr.length ≤ k := by omega
      refine ⟨s, fun _ => [], ?_, ready.stored, ?_, nofun, fun _ _ => rfl, ?_⟩
      · exact prependLoop_done (ready.isEmpty_iff.mpr done)
      · rw [List.drop_eq_nil_of_le done]
        simp
      · simp
  | succ m inductionHypothesis =>
      intro s contents k blk fuel ready left empty small enough
      rw [Nat.mul_succ] at left
      have begins : contents (slot s.head) = [] := by
        have first := empty 0 (Nat.succ_pos m)
        rwa [head_add_zero] at first
      have nothing : (contents (slot s.head)).length = 0 := by rw [begins]; rfl
      obtain ⟨after, rest, ran, next, published⟩ := ready.piece (r := T)
        (by rw [nothing]; decide) (by rw [nothing]; rfl) (by omega)
      have head := head_publish published
      have more : ¬blk.isEmpty = true := by
        rw [ready.isEmpty_iff]
        unfold T at left
        omega
      obtain ⟨fuel, rfl⟩ := Nat.exists_eq_succ_of_ne_zero (Nat.ne_of_gt
        (Nat.lt_of_lt_of_le (Nat.succ_pos m) enough))
      have others : ∀ j < m, slot (after.head + BitVec.ofNat 32 j) ≠ slot s.head := by
        intro j below
        rw [head, ← head_add_succ]
        have apart := slot_add_ne s.head (Nat.succ_pos j) (by omega)
        rwa [head_add_zero] at apart
      obtain ⟨last, added, rounds, filled⟩ := inductionHypothesis next (by omega)
        (fun j below => by
          rw [Function.update_of_ne (others j below), head, ← head_add_succ]
          exact empty (j + 1) (Nat.succ_lt_succ below))
        (Nat.lt_of_succ_lt small) (Nat.le_of_succ_le_succ enough)
      have untouched : added (slot s.head) = [] :=
        filled.others _ fun j below same => others j below same.symm
      refine ⟨last, Function.update added (slot s.head) ((ptr.drop k).take T), ?_, ?_, ?_, ?_, ?_,
        ?_⟩
      · rw [prependLoop_succ more, ran]
        exact rounds
      · have same : (fun e => Function.update added (slot s.head) ((ptr.drop k).take T) e ++
            contents e) = fun e => added e ++ Function.update contents (slot s.head)
              ((ptr.drop k).take T ++ contents (slot s.head)) e := by
          funext e
          by_cases here : e = slot s.head
          · subst here
            rw [Function.update_self, Function.update_self, untouched, List.nil_append]
          · rw [Function.update_of_ne here, Function.update_of_ne here]
        rw [same]
        exact filled.stored
      · have put := flatMap_update_perm ((ptr.drop k).take T) List.nodup_range
          (List.mem_range.mpr (slot_lt s.head)) untouched
        have rest := filled.once
        rw [← List.drop_drop] at rest
        refine put.trans ((rest.append_left _).trans ?_)
        rw [List.take_append_drop]
      · intro j below
        cases j with
        | zero =>
            rw [head_add_zero, Function.update_self,
              List.length_take, List.length_drop]
            omega
        | succ j =>
            rw [head_add_succ, ← head, Function.update_of_ne (others j (Nat.lt_of_succ_lt_succ
              below))]
            exact filled.full j (Nat.lt_of_succ_lt_succ below)
      · intro e outside
        have first := outside 0 (Nat.succ_pos m)
        rw [head_add_zero] at first
        rw [Function.update_of_ne first]
        refine filled.others e fun j below => ?_
        rw [head, ← head_add_succ]
        exact outside (j + 1) (Nat.succ_lt_succ below)
      · rw [filled.state, published, BitVec.add_assoc, headStride, BitVec.add_comm 1]
        exact congrArg _ (BitVec.ofNat_add m 1).symm

/-- Where every entry is empty or full, the loop ends only if the batches of the blocks
left are whole and find empty entries. -/
theorem prependLoop_ok (fuel : Nat) : ∀ {s : Remote} {contents : Nat → List Addr} {k : Nat}
    {blk : IntrusiveQueue Addr} {after : Remote}, Ready s contents ptr k blk → k ≤ ptr.length →
    (∀ e, contents e = [] ∨ (contents e).length = T) →
    Remote.prependLoop ptr fuel s k blk = .ok after →
    ∃ m, k + T * m = ptr.length ∧
      ∀ j < m, contents (slot (s.head + BitVec.ofNat 32 j)) = [] := by
  induction fuel with
  | zero =>
      intro s contents k blk after ready inside _ ran
      by_cases done : blk.isEmpty = true
      · have past := ready.isEmpty_iff.mp done
        exact ⟨0, by omega, nofun⟩
      · rw [Remote.prependLoop, if_neg done] at ran
        cases ran
  | succ fuel inductionHypothesis =>
      intro s contents k blk after ready inside settled ran
      by_cases done : blk.isEmpty = true
      · have past := ready.isEmpty_iff.mp done
        exact ⟨0, by omega, nofun⟩
      rw [prependLoop_succ done] at ran
      rcases settled (slot s.head) with begins | full
      · have nothing : (contents (slot s.head)).length = 0 := by rw [begins]; rfl
        have notFull : (contents (slot s.head)).length ≠ T := by rw [nothing]; decide
        by_cases fits : k + T ≤ ptr.length
        · obtain ⟨piece, rest, cut, next, published⟩ := ready.piece (r := T) notFull
            (by rw [nothing]; rfl) fits
          have head := head_publish published
          rw [cut] at ran
          have whole : ((ptr.drop k).take T ++ contents (slot s.head)).length = T := by
            rw [begins, List.append_nil, List.length_take, List.length_drop]
            omega
          obtain ⟨m, left, empty⟩ := inductionHypothesis next fits (fun e => by
            by_cases here : e = slot s.head
            · subst here
              rw [Function.update_self]
              exact .inr whole
            · rw [Function.update_of_ne here]
              exact settled e) ran
          refine ⟨m + 1, by rw [Nat.mul_succ]; omega, fun j below => ?_⟩
          cases j with
          | zero => rwa [head_add_zero]
          | succ j =>
              have later := empty j (Nat.lt_of_succ_lt_succ below)
              rw [head, ← head_add_succ] at later
              by_cases here : slot (s.head + BitVec.ofNat 32 (j + 1)) = slot s.head
              · rw [here, begins]
              · rwa [Function.update_of_ne here] at later
        · rw [ready.outOfBounds notFull (by rw [nothing]; omega)] at ran
          cases ran
      · rw [ready.full full] at ran
        cases ran

/-- The first piece is as large as the entry at head has room. The loop can only end if the
rest is whole batches, for which the first piece is one too. -/
theorem prependLoop_room {fuel : Nat} {after : Remote} (ready : Ready s contents ptr 0 blk)
    (settled : ∀ e, e ≠ slot s.head → contents e = [] ∨ (contents e).length = T)
    (ran : Remote.prependLoop ptr (fuel + 1) s 0 blk = .ok after) :
    ∀ j < M / T, contents (slot (s.head + BitVec.ofNat 32 j)) = [] := by
  have length := ready.length
  have short := ready.stored.short (slot s.head)
  have more : ¬blk.isEmpty = true := by
    rw [ready.isEmpty_iff, length]
    decide
  rw [prependLoop_succ more] at ran
  by_cases full : (contents (slot s.head)).length = T
  · rw [ready.full full] at ran
    cases ran
  have fits : 0 + (T - (contents (slot s.head)).length) ≤ ptr.length := by
    rw [length]
    unfold T M
    omega
  obtain ⟨piece, rest, cut, next, published⟩ := ready.piece full rfl fits
  have head := head_publish published
  have whole : ((ptr.drop 0).take (T - (contents (slot s.head)).length) ++
      contents (slot s.head)).length = T := by
    rw [List.length_append, List.length_take, List.length_drop]
    omega
  have others : ∀ e, Function.update contents (slot s.head)
      ((ptr.drop 0).take (T - (contents (slot s.head)).length) ++ contents (slot s.head)) e = [] ∨
        (Function.update contents (slot s.head) ((ptr.drop 0).take
          (T - (contents (slot s.head)).length) ++ contents (slot s.head)) e).length = T := by
    intro e
    by_cases here : e = slot s.head
    · subst here
      rw [Function.update_self]
      exact .inr whole
    · rw [Function.update_of_ne here]
      exact settled e here
  rw [cut] at ran
  obtain ⟨m, left, empty⟩ := prependLoop_ok _ next fits others ran
  have nothing : (contents (slot s.head)).length = 0 ∧ m = 3 := by
    rw [length] at left
    unfold T M at *
    omega
  intro j below
  cases j with
  | zero =>
      rw [head_add_zero]
      exact List.eq_nil_of_length_eq_zero nothing.1
  | succ j =>
      have later := empty j (by rw [nothing.2]; exact Nat.lt_of_succ_lt_succ below)
      have apart := slot_add_ne s.head (Nat.succ_pos j) (Nat.lt_trans below (by decide))
      rw [head_add_zero] at apart
      rwa [head, ← head_add_succ, Function.update_of_ne apart] at later

end Loop

/-- `_M_prepend` ends with each of the blocks in the ring once, the blocks that were there
in place, and every entry that it published full. -/
structure Prepended (s : Remote) (contents : Nat → List Addr) (ptr : List Addr) (after : Remote)
    (added : Nat → List Addr) : Prop where
  stored : Stored after fun e => added e ++ contents e
  once : ((List.range K).flatMap added).Perm ptr
  published : ∀ j < (after.head - s.head).toNat,
    (added (slot (s.head + BitVec.ofNat 32 j)) ++
      contents (slot (s.head + BitVec.ofNat 32 j))).length = T

def Prepends (s : Remote) (ptr : List Addr) : Prop :=
  ∃ contents after added, Stored s contents ∧ s.allocate ptr = .ok after ∧
    Prepended s contents ptr after added

/-- The entry at head and those after it that the batches of a mapping need. -/
def HasRoom (s : Remote) : Prop := ∀ j < M / T, (s.ring (slot (s.head + BitVec.ofNat 32 j))).n = 0

section Allocate

theorem fill_spec (next : Links Addr) {ptr : List Addr} (distinct : ptr.Nodup) :
    Represents (Remote.fill next ptr).1 (Remote.fill next ptr).2 ptr ∧
      ∀ blk ∉ ptr, (Remote.fill next ptr).1 blk = next blk := by
  induction ptr using List.reverseRecOn with
  | nil => exact ⟨represents_empty, fun _ _ => rfl⟩
  | append_singleton front last inductionHypothesis =>
      obtain ⟨queue, others⟩ := inductionHypothesis (List.nodup_append.mp distinct).1
      have fresh : last ∉ front := fun member =>
        (List.nodup_append.mp distinct).2.2 last member last (List.mem_singleton_self last) rfl
      obtain ⟨pushed, outside⟩ := queue.pushBack fresh
      rw [Remote.fill, List.foldl_concat]
      refine ⟨pushed, fun blk absent => (outside blk absent).trans (others blk fun member => ?_)⟩
      exact absent (List.mem_append_left _ member)

/-- The invariant of every run: an entry other than that at head is empty or full. -/
structure Inv (machine : Machine) (contents : Nat → List Addr) : Prop where
  stored : Stored machine.remote contents
  settled : ∀ e, e ≠ slot machine.remote.head → contents e = [] ∨ (contents e).length = T
  held : ∀ e, ∀ blk ∈ contents e, blk ∉ machine.held
  distinct : machine.held.Nodup

variable {machine : Machine} {contents : Nat → List Addr} {ptr : List Addr}

theorem Inv.ready (inv : Inv machine contents) (fresh : Fresh machine ptr) :
    Ready { machine.remote with next := (Remote.fill machine.remote.next ptr).1 } contents ptr 0
      (Remote.fill machine.remote.next ptr).2 := by
  obtain ⟨queue, others⟩ := fill_spec machine.remote.next fresh.distinct
  have apart : ∀ e, ∀ blk ∈ contents e, blk ∉ ptr := fun e blk stored new =>
    fresh.notStored blk new e _ (inv.stored.chain e) stored
  exact ⟨inv.stored.congr rfl fun e blk member => others blk (apart e blk member), fresh.length,
    queue, apart⟩

theorem Inv.room_iff (inv : Inv machine contents) : HasRoom machine.remote ↔
    ∀ j < M / T, contents (slot (machine.remote.head + BitVec.ofNat 32 j)) = [] :=
  forall₂_congr fun _ _ => inv.stored.zero_iff _

theorem Inv.allocate (inv : Inv machine contents) (fresh : Fresh machine ptr)
    (room : HasRoom machine.remote) : ∃ after added, machine.remote.allocate ptr = .ok after ∧
      Filled machine.remote contents ptr (M / T) after added := by
  have size : 0 + T * (M / T) = ptr.length := by rw [fresh.length]; rfl
  have enough : M / T ≤ ptr.length + 1 := by rw [fresh.length]; decide
  obtain ⟨after, added, ran, filled⟩ := prependLoop_spec (M / T) (inv.ready fresh) size
    (inv.room_iff.mp room) (by decide) enough
  exact ⟨after, added, ran, ⟨filled.stored, filled.once, filled.full, filled.others,
    filled.state⟩⟩

/-- A call that ends has found room for whole batches. -/
theorem Inv.room_of_allocate (inv : Inv machine contents) (fresh : Fresh machine ptr)
    {after : Remote} (ran : machine.remote.allocate ptr = .ok after) : HasRoom machine.remote := by
  have room := prependLoop_room (inv.ready fresh) inv.settled ran
  exact inv.room_iff.mpr room

/-- `_M_prepend` does what it is to do if and only if the entry at head and those after it
have room for whole batches. -/
theorem Inv.prepends_iff (inv : Inv machine contents) (fresh : Fresh machine ptr) :
    Prepends machine.remote ptr ↔ HasRoom machine.remote := by
  constructor
  · rintro ⟨_, after, _, _, ran, _⟩
    exact inv.room_of_allocate fresh ran
  · intro room
    obtain ⟨after, added, ran, filled⟩ := inv.allocate fresh room
    refine ⟨contents, after, added, inv.stored, ran, filled.stored, filled.once, ?_⟩
    have advanced : (after.head - machine.remote.head).toNat = M / T := by
      have state := filled.state
      have count : M / T = 4 := rfl
      rw [count] at state ⊢
      rw [Remote.head, Remote.head, state]
      unfold convert
      bv_omega
    rw [advanced]
    intro j below
    rw [inv.room_iff.mp room j below, List.append_nil]
    exact filled.full j below

end Allocate

section Runs

variable {machine : Machine} {contents : Nat → List Addr}

theorem inv_start : Inv {} fun _ => [] where
  stored := ⟨fun _ => rfl, fun _ => rfl, fun _ => Nat.zero_le _, fun _ _ _ _ member => by
    cases member⟩
  settled _ _ := .inl rfl
  held _ _ member := by cases member
  distinct := .nil

theorem Inv.push (inv : Inv machine contents) {blk : Addr} (mine : blk ∈ machine.held)
    (notFull : (contents (slot machine.remote.head)).length ≠ T) :
    ∃ after, machine.remote.push blk = .ok after ∧
      Inv ⟨after, machine.held.erase blk⟩ (Function.update contents (slot machine.remote.head)
        (blk :: contents (slot machine.remote.head))) ∧
      ((contents (slot machine.remote.head)).length + 1 ≠ T →
        after.state = machine.remote.state) := by
  have short := inv.stored.short (slot machine.remote.head)
  have n := inv.stored.n (slot machine.remote.head)
  have outside : ∀ e, blk ∉ contents e := fun e inside => inv.held e blk inside mine
  have counted : (machine.remote.ring (slot machine.remote.head)).n + 1 =
      BitVec.ofNat 64 (blk :: contents (slot machine.remote.head)).length := by
    rw [n, List.length_cons, BitVec.ofNat_add]
    rfl
  have becomes : (machine.remote.ring (slot machine.remote.head)).n + 1 = BitVec.ofNat 64 T ↔
      (contents (slot machine.remote.head)).length + 1 = T := by
    rw [counted, List.length_cons]
    unfold T at *
    bv_omega
  refine ⟨_, if_neg ((inv.stored.full_iff _).not.mpr notFull), ⟨?_, ?_, ?_, ?_⟩, ?_⟩
  · refine inv.stored.update (by rw [counted]) ⟨rfl, ?_⟩ (by
      rw [List.length_cons]
      omega) ?_ ?_
    · dsimp only
      rw [Function.update_self]
      exact (inv.stored.chain _).update _ (outside _)
    · intro f _ b inside
      exact Function.update_of_ne (ne_of_mem_of_not_mem inside (outside f)) _ _
    · intro f differs b inside
      rw [List.mem_cons, not_or]
      exact ⟨ne_of_mem_of_not_mem inside (outside f), inv.stored.apart f _ differs b inside⟩
  · intro e other
    by_cases here : e = slot machine.remote.head
    · subst here
      rw [Function.update_self]
      by_cases publishes : (contents (slot machine.remote.head)).length + 1 = T
      · exact .inr publishes
      · exact absurd (congrArg (fun state => slot (convert state).head)
          (if_neg (becomes.not.mpr publishes)).symm) other
    · rw [Function.update_of_ne here]
      exact inv.settled e here
  · intro e b inside
    by_cases here : e = slot machine.remote.head
    · subst here
      rw [Function.update_self] at inside
      rcases List.mem_cons.mp inside with rfl | stored
      · exact inv.distinct.not_mem_erase
      · exact fun held => inv.held _ b stored (List.mem_of_mem_erase held)
    · rw [Function.update_of_ne here] at inside
      exact fun held => inv.held e b inside (List.mem_of_mem_erase held)
  · exact inv.distinct.erase blk
  · intro stays
    exact if_neg (becomes.not.mpr stays)

theorem head_pop (state : BitVec 64) :
    (convert (state + tailStride)).head = (convert state).head := by
  have stride : tailStride = 4294967296#64 := rfl
  rw [stride]
  unfold convert
  bv_omega

theorem Inv.tryPop (inv : Inv machine contents)
    (available : machine.remote.head ≠ machine.remote.tail) :
    ∃ r after, machine.remote.tryPop = .ok (r, after) ∧
      Represents after.next r (contents (slot machine.remote.tail)).reverse ∧
      Inv ⟨after, (contents (slot machine.remote.tail)).reverse ++ machine.held⟩
        (Function.update contents (slot machine.remote.tail) []) ∧
      after.state = machine.remote.state + tailStride := by
  obtain ⟨links, r, reversed, represents, outside⟩ := createReversed_spec T
    (inv.stored.short (slot machine.remote.tail)) (inv.stored.chain (slot machine.remote.tail))
  generalize state : machine.remote.state + tailStride = popped
  have kept : (convert popped).head = machine.remote.head := by
    rw [← state]
    exact head_pop machine.remote.state
  refine ⟨r, { next := links
               ring := Function.update machine.remote.ring (slot machine.remote.tail) {}
               state := popped }, ?_, represents, ⟨?_, ?_, ?_, ?_⟩, rfl⟩
  · rw [Remote.tryPop, if_neg available]
    simp only [reversed, state]
  · refine inv.stored.update rfl rfl (Nat.zero_le _) ?_ ?_
    · intro f differs b inside
      exact outside b (inv.stored.apart f _ differs b inside)
    · exact fun _ _ _ _ => List.not_mem_nil
  · intro e other
    replace other : e ≠ slot (convert popped).head := other
    rw [kept] at other
    by_cases here : e = slot machine.remote.tail
    · subst here
      exact .inl (Function.update_self ..)
    · rw [Function.update_of_ne here]
      exact inv.settled e other
  · intro e b inside
    by_cases here : e = slot machine.remote.tail
    · subst here
      rw [Function.update_self] at inside
      cases inside
    · rw [Function.update_of_ne here] at inside
      rw [List.mem_append, List.mem_reverse, not_or]
      exact ⟨inv.stored.apart e _ here b inside, inv.held e b inside⟩
  · refine List.nodup_append.mpr ⟨represents.1.nodup, inv.distinct, ?_⟩
    rintro b taken c held rfl
    exact inv.held _ b (List.mem_reverse.mp taken) held

theorem Filled.inv {ptr : List Addr} {after : Remote} {added : Nat → List Addr}
    (inv : Inv machine contents) (fresh : Fresh machine ptr) (room : HasRoom machine.remote)
    (filled : Filled machine.remote contents ptr (M / T) after added) :
    Inv ⟨after, machine.held⟩ fun e => added e ++ contents e where
  stored := filled.stored
  settled e _ := by
    by_cases put : ∃ j < M / T, e = slot (machine.remote.head + BitVec.ofNat 32 j)
    · obtain ⟨j, below, rfl⟩ := put
      rw [inv.room_iff.mp room j below, List.append_nil]
      exact .inr (filled.full j below)
    · have apart : ∀ j < M / T, e ≠ slot (machine.remote.head + BitVec.ofNat 32 j) :=
        fun j below same => put ⟨j, below, same⟩
      have first := apart 0 (by decide)
      rw [head_add_zero] at first
      rw [filled.others e apart]
      exact inv.settled e first
  held e b inside := by
    rcases List.mem_append.mp inside with new | stored
    · by_cases put : e < K
      · exact fresh.notHeld b (filled.once.mem_iff.mp
          (List.mem_flatMap.mpr ⟨e, List.mem_range.mpr put, new⟩))
      · rw [filled.others e fun j _ same => put (same ▸ slot_lt _)] at new
        cases new
    · exact inv.held e b stored
  distinct := inv.distinct

theorem Inv.step (inv : Inv machine contents) {next : Machine} (step : Step machine next) :
    ∃ contents, Inv next contents := by
  cases step with
  | push held ran =>
      by_cases full : (contents (slot machine.remote.head)).length = T
      · rw [Remote.push, if_pos ((inv.stored.full_iff _).mpr full)] at ran
        cases ran
      · obtain ⟨after, pushed, kept, -⟩ := inv.push held full
        obtain rfl := Except.ok.inj (pushed.symm.trans ran)
        exact ⟨_, kept⟩
  | tryPop ran returned =>
      by_cases empty : machine.remote.head = machine.remote.tail
      · rw [Remote.tryPop, if_pos empty] at ran
        obtain ⟨rfl, rfl⟩ := Prod.mk.inj (Except.ok.inj ran)
        rw [returned.1.of_none]
        exact ⟨contents, inv⟩
      · obtain ⟨r, after, popped, represents, kept, -⟩ := inv.tryPop empty
        obtain ⟨rfl, rfl⟩ := Prod.mk.inj (Except.ok.inj (popped.symm.trans ran))
        rw [returned.1.unique represents.1]
        exact ⟨_, kept⟩
  | allocate fresh ran =>
      have room := inv.room_of_allocate fresh ran
      obtain ⟨after, added, called, filled⟩ := inv.allocate fresh room
      obtain rfl := Except.ok.inj (called.symm.trans ran)
      exact ⟨_, filled.inv inv fresh room⟩
  | relink others =>
      refine ⟨contents, ⟨inv.stored.congr rfl fun e b inside => ?_, inv.settled, inv.held,
        inv.distinct⟩⟩
      exact others b (inv.held e b inside)

theorem inv_of_reachable (reachable : system.Reachable machine) :
    ∃ contents, Inv machine contents := by
  refine reachable.invariant (fun machine => ∃ contents, Inv machine contents) ?_ ?_
  · rintro _ rfl
    exact ⟨_, inv_start⟩
  · rintro _ _ _ _ ⟨contents, inv⟩ step
    exact inv.step step

/-- In every state that acquires and releases of one thread lead to, the prepend of a new
mapping does what it is to do if and only if the entry at head is empty, and those after it
that the whole batches need. -/
theorem prepend_iff_hasRoom (reachable : system.Reachable machine) {ptr : List Addr}
    (fresh : Fresh machine ptr) : Prepends machine.remote ptr ↔ HasRoom machine.remote := by
  obtain ⟨contents, inv⟩ := inv_of_reachable reachable
  exact inv.prepends_iff fresh

/-- Every block known is below a bound. -/
structure Below (machine : Machine) (contents : Nat → List Addr) (bound : Nat) : Prop where
  held : ∀ blk ∈ machine.held, blk < bound
  stored : ∀ e, ∀ blk ∈ contents e, blk < bound

theorem Below.tryPop {after : Remote} {e bound : Nat} (below : Below machine contents bound) :
    Below ⟨after, (contents e).reverse ++ machine.held⟩ (Function.update contents e []) bound := by
  constructor
  · intro blk inside
    rcases List.mem_append.mp inside with taken | held
    · exact below.stored e blk (List.mem_reverse.mp taken)
    · exact below.held blk held
  · intro f blk inside
    by_cases here : f = e
    · subst here
      rw [Function.update_self] at inside
      cases inside
    · rw [Function.update_of_ne here] at inside
      exact below.stored f blk inside

theorem Below.push {after : Remote} {e bound : Nat} {blk : Addr}
    (below : Below machine contents bound) (mine : blk ∈ machine.held) :
    Below ⟨after, machine.held.erase blk⟩ (Function.update contents e (blk :: contents e))
      bound := by
  constructor
  · exact fun b held => below.held b (List.mem_of_mem_erase held)
  · intro f b inside
    by_cases here : f = e
    · subst here
      rw [Function.update_self] at inside
      rcases List.mem_cons.mp inside with rfl | stored
      · exact below.held b mine
      · exact below.stored f b stored
    · rw [Function.update_of_ne here] at inside
      exact below.stored f b inside

theorem Below.fresh {bound : Nat} (below : Below machine contents bound)
    (inv : Inv machine contents) : Fresh machine (List.range' bound M) where
  length := List.length_range'
  distinct := List.nodup_range'
  notHeld blk new held := by
    have past := (List.mem_range'_1.mp new).1
    exact absurd (below.held blk held) (Nat.not_lt.mpr past)
  notStored blk new e nodes chain stored := by
    have past := (List.mem_range'_1.mp new).1
    rw [chain.unique (inv.stored.chain e)] at stored
    exact absurd (below.stored e blk stored) (Nat.not_lt.mpr past)

theorem below_start (bound : Nat) : Below {} (fun _ => []) bound where
  held _ member := by cases member
  stored _ _ member := by cases member

theorem reachable_step {next : Machine} (reachable : system.Reachable machine)
    (step : Step machine next) : system.Reachable next :=
  reachable.step (show system.Step machine () next from step)

theorem prepended_reachable : ∃ machine contents, system.Reachable machine ∧
    Inv machine contents ∧ Below machine contents M ∧ machine.remote.state = 4 ∧
    (contents 0).length = T ∧
    ∀ j < M / T, contents (slot (4 + BitVec.ofNat 32 j)) = [] := by
  have start : system.Reachable {} := .init rfl
  have fresh := (below_start 0).fresh inv_start
  have room : HasRoom ({} : Machine).remote := fun _ _ => rfl
  obtain ⟨first, added, ran, filled⟩ := inv_start.allocate fresh room
  refine ⟨_, _, reachable_step start (.allocate fresh ran), filled.inv inv_start fresh room,
    ⟨(below_start M).held, fun e blk member => ?_⟩, filled.state, ?_, fun j bounded => ?_⟩
  · rw [List.append_nil] at member
    have inside : e < K := by
      by_contra outside
      rw [filled.others e fun j _ same => outside (same ▸ slot_lt _)] at member
      cases member
    have new := filled.once.mem_iff.mp
      (List.mem_flatMap.mpr ⟨e, List.mem_range.mpr inside, member⟩)
    have within := (List.mem_range'_1.mp new).2
    rwa [Nat.zero_add] at within
  · rw [List.append_nil]
    exact filled.full 0 (by decide)
  · rw [List.append_nil]
    exact filled.others _ (by revert j; decide)

/-- A second mapping is prepended behind the first. -/
theorem prepend_iff_hasRoom_second : ∃ machine ptr, system.Reachable machine ∧
    Fresh machine ptr ∧ machine.remote.head ≠ machine.remote.tail ∧
    Prepends machine.remote ptr := by
  obtain ⟨machine, contents, reachable, inv, below, state, -, behind⟩ := prepended_reachable
  have fresh := below.fresh inv
  have head : machine.remote.head = 4 := by
    rw [Remote.head, state]
    decide
  refine ⟨machine, _, reachable, fresh, ?_, (prepend_iff_hasRoom reachable fresh).mpr ?_⟩
  · rw [Remote.head, Remote.tail, state]
    decide
  · rw [inv.room_iff, head]
    exact behind

theorem Inv.popped {bound : Nat} (inv : Inv machine contents)
    (reachable : system.Reachable machine) (below : Below machine contents bound)
    {state : BitVec 64} (current : machine.remote.state = state)
    (available : (convert state).head ≠ (convert state).tail) :
    ∃ next after, system.Reachable next ∧ Inv next after ∧ Below next after bound ∧
      next.remote.state = state + tailStride ∧
      (∀ e, e ≠ slot (convert state).tail → after e = contents e) ∧
      ∀ blk ∈ contents (slot (convert state).tail), blk ∈ next.held := by
  subst current
  obtain ⟨r, after, ran, returned, kept, state⟩ := inv.tryPop available
  refine ⟨_, _, reachable_step reachable (.tryPop ran returned), kept, below.tryPop, state,
    fun e other => Function.update_of_ne other _ _, fun blk taken => ?_⟩
  exact List.mem_append_left _ (List.mem_reverse.mpr taken)

/-- The blocks of a mapping are popped, one of them is pushed, and a second mapping is
prepended to the empty ring: the entry at head holds the one block. -/
theorem not_prepends_partial : ∃ machine ptr, system.Reachable machine ∧ Fresh machine ptr ∧
    machine.remote.head = machine.remote.tail ∧ ¬Prepends machine.remote ptr := by
  obtain ⟨first, added, reachable, inv, below, state, published, behind⟩ := prepended_reachable
  obtain ⟨second, contents, reachable, inv, below, state, kept, taken⟩ :=
    inv.popped reachable below state (by decide)
  have nothing : contents 4 = [] := (kept 4 (by decide)).trans (behind 0 (by decide))
  obtain ⟨blk, batch⟩ := List.exists_mem_of_length_pos
    (l := added 0) (by rw [published]; decide)
  have atHead : slot second.remote.head = 4 := by
    rw [Remote.head, state]
    decide
  obtain ⟨third, ran, inv, same⟩ := inv.push (taken blk batch) (by rw [atHead, nothing]; decide)
  have reachable := reachable_step reachable (.push (taken blk batch) ran)
  have state : third.state = _ := (same (by rw [atHead, nothing]; decide)).trans state
  obtain ⟨_, _, reachable, inv, below, state, kept₁, -⟩ :=
    inv.popped reachable (below.push (taken blk batch)) state (by decide)
  obtain ⟨_, _, reachable, inv, below, state, kept₂, -⟩ :=
    inv.popped reachable below state (by decide)
  obtain ⟨last, after, reachable, inv, below, state, kept₃, -⟩ :=
    inv.popped reachable below state (by decide)
  have pushed : after 4 ≠ [] := by
    rw [kept₃ 4 (by decide), kept₂ 4 (by decide), kept₁ 4 (by decide), atHead,
      Function.update_self]
    exact List.cons_ne_nil blk _
  refine ⟨last, _, reachable, below.fresh inv, ?_, ?_⟩
  · rw [Remote.head, Remote.tail, state]
    decide
  · rw [inv.prepends_iff (below.fresh inv), inv.room_iff]
    intro empty
    have first := empty 0 (by decide)
    rw [head_add_zero, Remote.head, state] at first
    exact pushed first

end Runs

end NgrCore.RemoteSource.SingleThread
