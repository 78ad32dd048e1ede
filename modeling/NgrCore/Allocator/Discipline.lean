import Mathlib.Algebra.Order.BigOperators.Group.List
import Mathlib.Algebra.Order.Group.Nat
import Mathlib.Data.List.Pairwise
import NgrCore.Allocator.Push
import NgrCore.Library.Stacked
import NgrCore.Library.Transition

/-!
Owns the stack discipline of `__allocator`: over every run of pushes and pops, live
frames are disjoint and inside one chunk, a pop puts back what its push found, and the
chunk list is what the destructor frees.
-/

namespace NgrCore.Allocator

open Library

/-- An empty allocator in a memory of any contents. -/
def system (heap : OperatorNew) : System Machine Call where
  Init machine := ∃ memory, machine = { allocator := { memory } }
  Step := Step heap

/-- The bytes of a frame and its hidden prefix. -/
def Frame.Covers (frame : Frame) (x : Nat) : Prop :=
  frame.address - alignment ≤ x ∧ x < frame.address + frame.sz

/-- A frame and its extent on the stack of places. -/
structure Lies (obtained : List Region) (frame : Frame) (extent : Extent (ℕ ×ₗ ℕ)) :
    Prop where
  fits : alignment + frame.sz ≤ frameSize frame.sz
  saved : ∃ i, At obtained frame.held i ∧ extent.saved = toLex (i, frame.held.2)
  place : ∃ j region bump, obtained[j]? = some region ∧
    frame.address = bump + alignment ∧ region.start + alignment ≤ bump ∧
    bump + alignment + frameSize frame.sz ≤ region.limit ∧ alignment ∣ bump ∧
    extent.start = toLex (j, bump) ∧ extent.stop = toLex (j, bump + frameSize frame.sz)

theorem Lies.append {obtained : List Region} {frame : Frame} {extent : Extent (ℕ ×ₗ ℕ)}
    (lies : Lies obtained frame extent) (more : List Region) :
    Lies (obtained ++ more) frame extent where
  fits := lies.fits
  saved := by
    obtain ⟨i, stands, same⟩ := lies.saved
    exact ⟨i, stands.append more, same⟩
  place := by
    obtain ⟨j, region, bump, found, rest⟩ := lies.place
    have inside := (List.getElem?_eq_some_iff.mp found).1
    exact ⟨j, region, bump, by rw [List.getElem?_append_left inside, found], rest⟩

/-- Where the stack of live frames stands. -/
def Stands (machine : Machine) : Prop :=
  ∃ i first extents, machine.allocator.obtained[0]? = some first ∧
    At machine.allocator.obtained
      (machine.allocator.curChunk, machine.allocator.curBump) i ∧
    List.Forall₂ (Lies machine.allocator.obtained) machine.live extents ∧
    Stacked (toLex (0, start first.start)) (toLex (i, machine.allocator.curBump)) extents

structure Inv (machine : Machine) : Prop where
  laid : Laid machine.allocator
  stack : (machine.allocator.obtained = [] ∧ machine.allocator.curChunk = none ∧
    machine.live = []) ∨ Stands machine
  prefixes : ∀ frame ∈ machine.live,
    machine.allocator.memory (frame.address - alignment) =
      .frame frame.held.1 frame.held.2

theorem Lies.disjoint {state : State} (laid : Laid state) {older newer : Frame}
    {below above : Extent (ℕ ×ₗ ℕ)} (olderLies : Lies state.obtained older below)
    (newerLies : Lies state.obtained newer above) (order : below.stop ≤ above.start) {x : Nat}
    (first : older.Covers x) : ¬newer.Covers x := by
  intro second
  obtain ⟨j, region, bump, found, address, front, back, _, _, stop⟩ := olderLies.place
  obtain ⟨k, other, place, within, addressToo, frontToo, backToo, _, begins, _⟩ :=
    newerLies.place
  have fits := olderLies.fits
  have fitsToo := newerLies.fits
  rw [stop, begins] at order
  have order : j < k ∨ j = k ∧ bump + frameSize older.sz ≤ place :=
    Prod.Lex.toLex_le_toLex.mp order
  unfold Frame.Covers at first second
  unfold alignment at *
  have sameChunk : j = k := by
    apply laid.index_unique found within (x := x)
    · unfold Region.Has
      omega
    · unfold Region.Has
      omega
  omega

section Invariant

variable {heap : OperatorNew} {machine : Machine}

theorem inv_init (memory : Nat → Cell) : Inv { allocator := { memory } } where
  laid := laid_init memory
  stack := .inl ⟨rfl, rfl, rfl⟩
  prefixes _ member := absurd member (by simp)

theorem Inv.lies (inv : Inv machine) {frame : Frame} (member : frame ∈ machine.live) :
    ∃ extent, Lies machine.allocator.obtained frame extent := by
  rcases inv.stack with ⟨_, _, none⟩ | ⟨_, _, extents, _, _, lie, _⟩
  · exact absurd (none ▸ member) (by simp)
  · obtain ⟨extent, _, lies⟩ := exists_of_forall₂ lie member
    exact ⟨extent, lies⟩

theorem Inv.disjoint (inv : Inv machine) :
    machine.live.Pairwise fun newer older => ∀ x, newer.Covers x → ¬older.Covers x := by
  rcases inv.stack with ⟨_, _, none⟩ | ⟨_, _, extents, _, _, lie, stacked⟩
  · rw [none]
    exact .nil
  · exact stacked.pairwise_of_lies lie fun newer older above below newerLies olderLies order
      x first second => olderLies.disjoint inv.laid newerLies order second first

/-- The prefix of a live frame is no prefix of a chunk. -/
theorem Lies.ne_start {state : State} (laid : Laid state) {frame : Frame}
    {extent : Extent (ℕ ×ₗ ℕ)} (lies : Lies state.obtained frame extent) {region : Region}
    (member : region ∈ state.obtained) {x : Nat} (covers : frame.Covers x) :
    x ≠ region.start := by
  obtain ⟨j, own, bump, found, address, front, back, _⟩ := lies.place
  have fits := lies.fits
  unfold Frame.Covers at covers
  unfold alignment at *
  exact laid.ne_start found (by unfold alignment; omega) (by omega) member

theorem Lies.inside {obtained : List Region} {frame : Frame} {extent : Extent (ℕ ×ₗ ℕ)}
    (lies : Lies obtained frame extent) {x : Nat} (covers : frame.Covers x) :
    ∃ region ∈ obtained, region.Has x := by
  obtain ⟨j, region, bump, found, address, front, back, _⟩ := lies.place
  have fits := lies.fits
  refine ⟨region, List.mem_of_getElem? found, ?_⟩
  unfold Frame.Covers at covers
  unfold Region.Has
  unfold alignment at *
  omega

theorem Frame.covers_prefix {obtained : List Region} {frame : Frame}
    {extent : Extent (ℕ ×ₗ ℕ)} (lies : Lies obtained frame extent) :
    frame.Covers (frame.address - alignment) := by
  obtain ⟨_, _, bump, _, address, _⟩ := lies.place
  unfold Frame.Covers
  unfold alignment at *
  omega

theorem Inv.pop (inv : Inv machine) {frame : Frame} {rest : List Frame}
    (live : machine.live = frame :: rest) :
    ∃ after, popStackFrame machine.allocator frame.address = .ok after ∧
      (after.curChunk, after.curBump) = frame.held ∧
        Inv { allocator := after, live := rest } := by
  have stored := inv.prefixes frame (by simp [live])
  refine ⟨{ machine.allocator with curChunk := frame.held.1, curBump := frame.held.2 },
    by rw [popStackFrame, stored], rfl, ?_⟩
  rcases inv.stack with ⟨_, _, none⟩ | ⟨i, first, extents, found, stands, lie, stacked⟩
  · exact absurd (live.symm.trans none) (by simp)
  · rw [live] at lie
    cases lie with
    | @cons _ extent _ _ lies others =>
        obtain ⟨k, held, saved⟩ := lies.saved
        have below := stacked.pop
        rw [saved] at below
        exact
          { laid := inv.laid.congr rfl rfl fun _ _ => rfl
            stack := .inr ⟨k, first, _, found, held, others, below⟩
            prefixes := fun older member => inv.prefixes older (by simp [live, member]) }

/-- A push that begins with the allocator's own place keeps the invariant. -/
theorem Pushed.inv {sz i bump : Nat} {after : State} {first : Region}
    {extents : List (Extent (ℕ ×ₗ ℕ))} (fits : alignment + sz + alignment ≤ 2 ^ 64)
    (inv : Inv machine) (found : machine.allocator.obtained[0]? = some first)
    (stands : At machine.allocator.obtained
      (machine.allocator.curChunk, machine.allocator.curBump) i)
    (lie : List.Forall₂ (Lies machine.allocator.obtained) machine.live extents)
    (stacked : Stacked (toLex (0, start first.start)) (toLex (i, machine.allocator.curBump))
      extents)
    (pushed : Pushed (frameSize sz) (machine.allocator.curChunk, machine.allocator.curBump)
      machine.allocator i bump after) :
    Inv { allocator := after
          live := ⟨bump + alignment, sz,
            (machine.allocator.curChunk, machine.allocator.curBump)⟩ :: machine.live } := by
  obtain ⟨more, grown⟩ := pushed.grown
  obtain ⟨j, region, within, cur, top, front, back, aligned, above⟩ := pushed.place
  have lies : Lies after.obtained
      ⟨bump + alignment, sz, (machine.allocator.curChunk, machine.allocator.curBump)⟩
      ⟨toLex (i, machine.allocator.curBump), toLex (j, bump),
        toLex (j, bump + frameSize sz)⟩ :=
    { fits := frameSize_le fits
      saved := ⟨i, grown ▸ stands.append more, rfl⟩
      place := ⟨j, region, bump, within, rfl, front, back, aligned, rfl, rfl⟩ }
  have older : List.Forall₂ (Lies after.obtained) machine.live extents :=
    lie.imp fun _ _ lies => grown ▸ lies.append more
  have long : toLex (j, bump) ≤ toLex (j, bump + frameSize sz) :=
    Prod.Lex.toLex_le_toLex.mpr (.inr ⟨rfl, Nat.le_add_right _ _⟩)
  have base : after.obtained[0]? = some first := by
    have inside := (List.getElem?_eq_some_iff.mp found).1
    rw [grown, List.getElem?_append_left inside, found]
  have place : At after.obtained (after.curChunk, after.curBump) j := by
    refine ⟨region, within, cur, ?_, ?_, ?_⟩
    · exact front.trans (top ▸ Nat.le_add_right _ _)
    · change after.curBump ≤ region.limit
      omega
    · exact top ▸ Nat.dvd_add aligned (alignment_dvd_frameSize fits)
  refine ⟨pushed.laid, .inr ⟨j, first, _, base, place, .cons lies older, ?_⟩, ?_⟩
  · change Stacked _ (toLex (j, after.curBump)) _
    rw [top]
    exact ⟨rfl, above, long, stacked⟩
  · intro frame member
    rcases List.mem_cons.mp member with rfl | member
    · exact pushed.written
    · obtain ⟨extent, within, liesBelow⟩ := exists_of_forall₂ lie member
      have covers := Frame.covers_prefix liesBelow
      have liesAfter := grown ▸ liesBelow.append more
      rw [pushed.keeps _ ?_ fun region member => liesAfter.ne_start pushed.laid member covers]
      · exact inv.prefixes frame member
      · intro same
        have below := (stacked.stop_le within).trans above
        refine liesAfter.disjoint pushed.laid lies below covers ?_
        rw [same]
        exact Frame.covers_prefix lies

theorem Inv.push (inv : Inv machine) {sz address : Nat} {after : State}
    (ran : pushStackFrame heap machine.allocator sz = .ok (address, after)) :
    Inv { allocator := after
          live := ⟨address, sz, held machine.allocator after⟩ :: machine.live } := by
  rcases inv.stack with ⟨empty, null, none⟩ | ⟨i, first, extents, found, stands, lie, stacked⟩
  · rcases pushStackFrame_first heap inv.laid empty null with
      ⟨wraps, -⟩ | ⟨⟨fits, -⟩, chunk, grown, bump, last, pushed, allocated, facts⟩
    · exact absurd (wraps.symm.trans ran) (by simp)
    · obtain ⟨rfl, rfl⟩ : bump + alignment = address ∧ last = after := by
        simpa using pushed.symm.trans ran
      have new : grown.obtained[0]? = 
          some ⟨chunk, alignment + capacity machine.allocator (frameSize sz)⟩ := by
        rw [allocated.obtained, empty]
        rfl
      have entered : Inv { allocator := grown.enter chunk } :=
        { laid := allocated.laid.congr rfl rfl fun _ _ => rfl
          stack := .inr ⟨0, _, [], new, allocated.laid.at_start new, .nil, rfl⟩
          prefixes := fun _ member => absurd member (by simp) }
      have kept := facts.inv fits entered new (allocated.laid.at_start new) .nil rfl
      have same : held machine.allocator last = (some chunk, start chunk) := by
        obtain ⟨more, obtained⟩ := facts.grown
        have head : last.chunk = some chunk := by
          rw [facts.laid.head, obtained]
          change ((grown.obtained ++ more)[0]?).map _ = _
          rw [allocated.obtained, empty]
          rfl
        rw [held, null, head]
        rfl
      rw [same, none]
      exact kept
  · rcases pushStackFrame_spec heap inv.laid stands with
      ⟨wraps, -⟩ | ⟨⟨fits, -⟩, bump, last, pushed, facts⟩
    · exact absurd (wraps.symm.trans ran) (by simp)
    · obtain ⟨rfl, rfl⟩ : bump + alignment = address ∧ last = after := by
        simpa using pushed.symm.trans ran
      have same : held machine.allocator last =
          (machine.allocator.curChunk, machine.allocator.curBump) := by
        obtain ⟨region, _, cur, _⟩ := stands
        replace cur : machine.allocator.curChunk = some region.start := cur
        rw [held, cur]
      rw [same]
      exact facts.inv fits inv found stands lie stacked

theorem Frame.Owns.covers {frame : Frame} {x : Nat} (owns : frame.Owns x) :
    frame.Covers x :=
  ⟨(Nat.sub_le _ _).trans owns.1, owns.2⟩

/-- The owner of a frame writes to no prefix of a live frame. -/
theorem Inv.not_owns_prefix (inv : Inv machine) {frame other : Frame}
    (member : frame ∈ machine.live) (memberToo : other ∈ machine.live) :
    ¬frame.Owns (other.address - alignment) := by
  have covers : ∀ frame ∈ machine.live, frame.Covers (frame.address - alignment) := by
    intro frame member
    obtain ⟨extent, lies⟩ := inv.lies member
    exact Frame.covers_prefix lies
  have notOwn : ∀ frame ∈ machine.live, ¬frame.Owns (frame.address - alignment) := by
    intro frame member owns
    obtain ⟨extent, lies⟩ := inv.lies member
    obtain ⟨_, _, bump, _, address, _⟩ := lies.place
    unfold Frame.Owns at owns
    unfold alignment at address owns
    omega
  let Free (frame other : Frame) : Prop :=
    ¬frame.Owns (other.address - alignment) ∧ ¬other.Owns (frame.address - alignment)
  have symmetric : Std.Symm Free := ⟨fun _ _ free => free.symm⟩
  have pairs : machine.live.Pairwise Free := inv.disjoint.imp_of_mem
    fun left right disjoint => ⟨fun owns => disjoint _ owns.covers (covers _ right),
      fun owns => disjoint _ (covers _ left) owns.covers⟩
  exact (pairs.forall_of_forall (fun frame member => ⟨notOwn frame member, notOwn frame member⟩)
    member memberToo).1

theorem Inv.other (inv : Inv machine) {memory : Nat → Cell}
    (confined : ∀ x, memory x ≠ machine.allocator.memory x →
      (∃ frame ∈ machine.live, frame.Owns x) ∨
        ∀ region ∈ machine.allocator.obtained, ¬region.Has x) :
    Inv { machine with allocator := { machine.allocator with memory } } := by
  have unchanged : ∀ x, (∃ region ∈ machine.allocator.obtained, region.Has x) →
      (∀ frame ∈ machine.live, ¬frame.Owns x) → memory x = machine.allocator.memory x := by
    intro x ⟨region, member, has⟩ free
    by_contra changed
    rcases confined x changed with ⟨frame, live, owns⟩ | outside
    · exact free frame live owns
    · exact outside region member has
  refine ⟨inv.laid.congr rfl rfl fun region member => ?_, inv.stack, fun frame member => ?_⟩
  · refine unchanged _ ⟨region, member, inv.laid.has_start member⟩ fun frame live owns => ?_
    obtain ⟨extent, lies⟩ := inv.lies live
    exact lies.ne_start inv.laid member owns.covers rfl
  · obtain ⟨extent, lies⟩ := inv.lies member
    have inside := lies.inside (Frame.covers_prefix lies)
    exact (unchanged _ inside fun owner live => inv.not_owns_prefix live member).trans
      (inv.prefixes frame member)

theorem Inv.step (inv : Inv machine) {call : Call} {after : Machine}
    (step : Step heap machine call after) : Inv after := by
  cases step with
  | push ran => exact inv.push ran
  | pop live ran =>
      obtain ⟨after, popped, _, kept⟩ := inv.pop live
      obtain rfl := Except.ok.inj (popped.symm.trans ran)
      exact kept
  | other confined => exact inv.other confined

theorem inv_of_reachable (reachable : (system heap).Reachable machine) : Inv machine := by
  refine System.Reachable.invariant Inv ?_ (fun _ _ _ _ inv step => inv.step step) reachable
  rintro _ ⟨memory, rfl⟩
  exact inv_init memory

/-- A push succeeds unless a sum wraps. -/
theorem Inv.push_ok (inv : Inv machine) (heap : OperatorNew) (sz : Nat) :
    (pushStackFrame heap machine.allocator sz = .error .overflow ∧
        ¬NoOverflow machine.allocator sz) ∨
      NoOverflow machine.allocator sz ∧
        ∃ address after, pushStackFrame heap machine.allocator sz = .ok (address, after) := by
  rcases inv.stack with ⟨empty, null, _⟩ | ⟨i, _, _, _, stands, _⟩
  · exact (pushStackFrame_first heap inv.laid empty null).imp_right
      fun ⟨sums, _, _, bump, after, ran, _⟩ => ⟨sums, bump + alignment, after, ran⟩
  · exact (pushStackFrame_spec heap inv.laid stands).imp_right
      fun ⟨sums, bump, after, ran, _⟩ => ⟨sums, bump + alignment, after, ran⟩

end Invariant

/-- Live frames share no byte and no prefix, each lies in one chunk, behind the prefix of
the chunk, at an aligned address; a pop puts back what the push held when it began; and
the chunk list is acyclic, has every chunk obtained, and is what the destructor frees. -/
structure Disciplined (heap : OperatorNew) (machine : Machine) : Prop where
  disjoint : machine.live.Pairwise fun newer older => ∀ x, newer.Covers x → ¬older.Covers x
  inside : ∀ frame ∈ machine.live, ∃ region ∈ machine.allocator.obtained,
    (∃ next, machine.allocator.memory region.start = .chunk next region.limit) ∧
      start region.start ≤ frame.address - alignment ∧
      frame.address + frame.sz ≤ region.limit
  aligned : ∀ frame ∈ machine.live, alignment ∣ frame.address ∧ alignment ≤ frame.address
  succeeds : ∀ sz, (pushStackFrame heap machine.allocator sz = .error .overflow ∧
      ¬NoOverflow machine.allocator sz) ∨
    NoOverflow machine.allocator sz ∧
      ∃ address after, pushStackFrame heap machine.allocator sz = .ok (address, after)
  restores : ∀ frame rest, machine.live = frame :: rest →
    ∃ after, popStackFrame machine.allocator frame.address = .ok after ∧
      (after.curChunk, after.curBump) = frame.held
  chunks : Chain (next machine.allocator.memory) machine.allocator.chunk
    (machine.allocator.obtained.map Region.start)
  acyclic : (machine.allocator.obtained.map Region.start).Nodup
  freed : destroy machine.allocator = .ok (machine.allocator.obtained.map Region.start)

/-- In every run. -/
theorem stack_discipline {heap : OperatorNew} {machine : Machine}
    (reachable : (system heap).Reachable machine) : Disciplined heap machine := by
  have inv := inv_of_reachable reachable
  exact
    { disjoint := inv.disjoint
      inside := fun frame member => by
        obtain ⟨extent, lies⟩ := inv.lies member
        obtain ⟨j, region, bump, found, address, front, back, _⟩ := lies.place
        have fits := lies.fits
        refine ⟨region, List.mem_of_getElem? found, ⟨_, inv.laid.cell j region found⟩, ?_, ?_⟩
        · unfold start
          omega
        · unfold alignment at *
          omega
      aligned := fun frame member => by
        obtain ⟨extent, lies⟩ := inv.lies member
        obtain ⟨j, region, bump, _, address, _, _, aligned, _⟩ := lies.place
        exact ⟨address ▸ Nat.dvd_add aligned (Nat.dvd_refl _),
          address ▸ Nat.le_add_left _ _⟩
      succeeds := inv.push_ok heap
      restores := fun frame rest live => by
        obtain ⟨after, popped, restored, _⟩ := inv.pop live
        exact ⟨after, popped, restored⟩
      chunks := inv.laid.chain
      acyclic := inv.laid.chain.nodup
      freed := inv.laid.destroy_eq }

/-- An `::operator new` that returns memory behind all it has returned. -/
def ascending : OperatorNew where
  address obtained _ := alignment * ((obtained.map Region.limit).sum + 1)
  aligned _ _ := Nat.dvd_mul_right _ _
  apart obtained n region member := by
    left
    have below : region.limit ≤ (obtained.map Region.limit).sum :=
      List.le_sum_of_mem (List.mem_map_of_mem member)
    change region.limit ≤ alignment * ((obtained.map Region.limit).sum + 1)
    unfold alignment
    omega

/-- Two frames; the second does not fit behind the first, nor in the chunk obtained for
its size alone. -/
theorem stack_discipline_grown : ∃ machine : Machine,
    machine.live = [⟨352048, 4000, (some 16, 96)⟩, ⟨48, 40, (some 16, 32)⟩] ∧
      machine.allocator.obtained.length = 3 ∧ Disciplined ascending machine := by
  have empty : (system ascending).Reachable { allocator := { memory := fun _ => .raw } } :=
    .init ⟨_, rfl⟩
  have first := empty.step (@Step.push ascending _ _ 40 _ rfl)
  have second := first.step (@Step.push ascending _ _ 4000 _ rfl)
  exact ⟨_, rfl, rfl, stack_discipline second⟩

end NgrCore.Allocator
