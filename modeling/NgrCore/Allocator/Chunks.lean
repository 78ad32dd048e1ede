import NgrCore.Allocator
import NgrCore.Library.Chain

/-!
Owns the chunk list of `__allocator`: the regions that `::operator new` returned, in
the order in which it returned them, and what `_M_allocate_chunk` and the destructor do
with it.
-/

namespace NgrCore.Allocator

open Library

theorem Region.Apart.symm {region other : Region} (apart : region.Apart other) :
    other.Apart region :=
  Or.symm apart

/-- The chunks in the order of their allocation: what every prefix holds, and where the
regions lie. -/
structure Laid (state : State) : Prop where
  head : state.chunk = state.obtained[0]?.map Region.start
  cell : ∀ i region, state.obtained[i]? = some region →
    state.memory region.start = .chunk (state.obtained[i + 1]?.map Region.start) region.limit
  aligned : ∀ region ∈ state.obtained, alignment ∣ region.start
  room : ∀ region ∈ state.obtained, alignment ≤ region.size
  apart : state.obtained.Pairwise Region.Apart

/-- The `__next_` of the prefix at an address. -/
def next (memory : Nat → Cell) (x : Nat) : Option Nat :=
  match memory x with
  | .chunk next _ => next
  | _ => none

namespace Laid

variable {state : State}

theorem apart_of_ne (laid : Laid state) {i j : Nat} {region other : Region}
    (first : state.obtained[i]? = some region) (second : state.obtained[j]? = some other)
    (different : i ≠ j) : region.Apart other := by
  obtain ⟨inside, rfl⟩ := List.getElem?_eq_some_iff.mp first
  obtain ⟨within, rfl⟩ := List.getElem?_eq_some_iff.mp second
  have pairwise := List.pairwise_iff_getElem.mp laid.apart
  rcases Nat.lt_or_gt_of_ne different with before | after
  · exact pairwise i j inside within before
  · exact (pairwise j i within inside after).symm

theorem index_unique (laid : Laid state) {i j : Nat} {region other : Region} {x : Nat}
    (first : state.obtained[i]? = some region) (second : state.obtained[j]? = some other)
    (has : region.Has x) (hasToo : other.Has x) : i = j := by
  by_contra different
  have apart := laid.apart_of_ne first second different
  unfold Region.Has at has hasToo
  unfold Region.Apart at apart
  omega

theorem has_start (laid : Laid state) {region : Region} (member : region ∈ state.obtained) :
    region.Has region.start := by
  have room := laid.room region member
  unfold Region.Has Region.limit
  unfold alignment at room
  omega

theorem ne_start (laid : Laid state) {i : Nat} {region other : Region} {x : Nat}
    (found : state.obtained[i]? = some region) (behind : region.start + alignment ≤ x)
    (inside : x < region.limit) (member : other ∈ state.obtained) : x ≠ other.start := by
  rintro rfl
  obtain ⟨j, within⟩ := List.mem_iff_getElem?.mp member
  have has : region.Has other.start := by
    unfold Region.Has
    unfold alignment at behind
    omega
  obtain rfl := laid.index_unique found within has (laid.has_start member)
  obtain rfl : region = other := Option.some.inj (found.symm.trans within)
  unfold alignment at behind
  omega

/-- The chunk list from `__chunk_` is every chunk obtained, in order. -/
theorem chain (laid : Laid state) :
    Chain (next state.memory) state.chunk (state.obtained.map Region.start) := by
  apply Chain.of_links
  · rw [List.getElem?_map]
    exact laid.head
  · intro i start found
    rw [List.getElem?_map, Option.map_eq_some_iff] at found
    obtain ⟨region, found, rfl⟩ := found
    rw [next, laid.cell i region found, List.getElem?_map]

/-- The prefixes are all that a state needs to stay laid out. -/
theorem congr (laid : Laid state) {other : State} (chunk : other.chunk = state.chunk)
    (obtained : other.obtained = state.obtained)
    (memory : ∀ region ∈ state.obtained,
      other.memory region.start = state.memory region.start) : Laid other where
  head := by rw [chunk, obtained, laid.head]
  cell i region found := by
    rw [obtained] at found ⊢
    rw [memory region (List.mem_of_getElem? found), laid.cell i region found]
  aligned := obtained ▸ laid.aligned
  room := obtained ▸ laid.room
  apart := obtained ▸ laid.apart

end Laid

theorem laid_init (memory : Nat → Cell) : Laid { memory } where
  head := rfl
  cell _ _ found := by simp at found
  aligned _ member := by simp at member
  room _ member := by simp at member
  apart := .nil

section Allocate

variable {state : State} {hint : Nat}

/-- The capacity of the chunk that `_M_allocate_chunk` obtains. -/
def capacity (state : State) (hint : Nat) : Nat := max state.nextCap hint

/-- What a call of `_M_allocate_chunk` leaves. -/
structure Allocated (state : State) (hint : Nat) (chunk : Nat) (after : State) : Prop where
  obtained : after.obtained = state.obtained ++ [⟨chunk, alignment + capacity state hint⟩]
  laid : Laid after
  sum : capacity state hint * growthFactor < 2 ^ 64
  nextCap : after.nextCap = capacity state hint * growthFactor
  keeps : ∀ x, (∀ region ∈ after.obtained, x ≠ region.start) →
    after.memory x = state.memory x

/-- A region behind the others, once the last prefix links to it. -/
theorem Laid.extend (laid : Laid state) {region : Region} {after : State}
    (obtained : after.obtained = state.obtained ++ [region])
    (chunk : after.chunk = (state.obtained ++ [region])[0]?.map Region.start)
    (fresh : after.memory region.start = .chunk none region.limit)
    (linked : ∀ last, state.obtained.getLast? = some last →
      after.memory last.start = .chunk (some region.start) last.limit)
    (kept : ∀ i other, state.obtained[i]? = some other → i + 1 < state.obtained.length →
      after.memory other.start = state.memory other.start)
    (aligned : alignment ∣ region.start) (room : alignment ≤ region.size)
    (apart : ∀ other ∈ state.obtained, other.Apart region) : Laid after where
  head := by rw [chunk, obtained]
  cell i other found := by
    rw [obtained] at found ⊢
    rcases Nat.lt_trichotomy (i + 1) state.obtained.length with inner | atLast | beyond
    · rw [List.getElem?_append_left (by omega)] at found
      rw [List.getElem?_append_left inner, kept i other found inner, laid.cell i other found]
    · rw [List.getElem?_append_left (by omega)] at found
      have last : state.obtained.getLast? = some other := by
        rw [List.getLast?_eq_getElem?, ← atLast]
        exact found
      rw [linked other last, atLast]
      simp
    · have inside := (List.getElem?_eq_some_iff.mp found).1
      rw [List.length_append, List.length_singleton] at inside
      have atEnd : i = state.obtained.length := by omega
      subst atEnd
      obtain rfl : region = other := by simpa using found
      rw [fresh]
      simp
  aligned other member := by
    rw [obtained] at member
    rcases List.mem_append.mp member with old | new
    · exact laid.aligned other old
    · obtain rfl := List.mem_singleton.mp new
      exact aligned
  room other member := by
    rw [obtained] at member
    rcases List.mem_append.mp member with old | new
    · exact laid.room other old
    · obtain rfl := List.mem_singleton.mp new
      exact room
  apart := by
    rw [obtained, List.pairwise_append]
    refine ⟨laid.apart, List.pairwise_singleton _ _, fun other member new fresh => ?_⟩
    obtain rfl := List.mem_singleton.mp fresh
    exact apart other member

theorem allocateChunk_spec (heap : OperatorNew) (hint : Nat) (laid : Laid state)
    (last : state.curChunk = state.obtained.getLast?.map Region.start) :
    (allocateChunk heap state hint = .error .overflow ∧
        2 ^ 64 ≤ capacity state hint * growthFactor) ∨
      ∃ chunk after, allocateChunk heap state hint = .ok (chunk, after) ∧
        Allocated state hint chunk after := by
  have larger : (if state.nextCap < hint then hint else state.nextCap) =
      capacity state hint := by
    unfold capacity
    split <;> omega
  unfold allocateChunk
  rw [larger]
  by_cases wraps : 2 ^ 64 ≤ alignment + capacity state hint ∨
      2 ^ 64 ≤ capacity state hint * growthFactor
  · refine .inl ⟨if_pos wraps, ?_⟩
    unfold alignment growthFactor at wraps
    unfold growthFactor
    omega
  have sum : capacity state hint * growthFactor < 2 ^ 64 := by omega
  right
  simp only [if_neg wraps]
  have aligned := heap.aligned state.obtained (alignment + capacity state hint)
  have apart := heap.apart state.obtained (alignment + capacity state hint)
  generalize heap.address state.obtained (alignment + capacity state hint) = chunk
    at aligned apart ⊢
  have room : alignment ≤ alignment + capacity state hint := Nat.le_add_right _ _
  have distinct : ∀ other ∈ state.obtained, other.start ≠ chunk := by
    intro other member same
    have apart : other.start + other.size ≤ chunk ∨
        chunk + (alignment + capacity state hint) ≤ other.start := apart other member
    have long := laid.room other member
    unfold alignment at apart long
    omega
  have untouched : ∀ x ≠ chunk,
      (state.obtain chunk (capacity state hint)).memory x = state.memory x :=
    fun x other => Function.update_of_ne other _ _
  have written : (state.obtain chunk (capacity state hint)).memory chunk =
      .chunk none (chunk + (alignment + capacity state hint)) :=
    Function.update_self _ _ _
  cases obtained : state.obtained.getLast? with
  | none =>
      have empty : state.obtained = [] := List.getLast?_eq_none_iff.mp obtained
      rw [obtained, Option.map_none] at last
      rw [last]
      refine ⟨_, _, rfl, ⟨rfl, ?_, sum, rfl, fun x outside => untouched x ?_⟩⟩
      · exact laid.extend rfl (by simp [empty]) written (by simp [obtained])
          (by simp [empty]) aligned room apart
      · exact outside _ (List.mem_append_right _ (List.mem_singleton_self _))
  | some tail =>
      have member : tail ∈ state.obtained := List.mem_of_getLast? obtained
      have position : state.obtained[state.obtained.length - 1]? = some tail := by
        rw [← List.getLast?_eq_getElem?]
        exact obtained
      have long : 0 < state.obtained.length := List.length_pos_of_mem member
      have stored := laid.cell _ tail position
      rw [← untouched _ (distinct tail member)] at stored
      rw [obtained, Option.map_some] at last
      rw [last]
      simp only [stored]
      refine ⟨_, _, rfl, ⟨rfl, ?_, sum, rfl, fun x outside => ?_⟩⟩
      · refine laid.extend rfl ?_ ?_ (fun other found => ?_) (fun i other found inner => ?_)
          aligned room apart
        · rw [List.getElem?_append_left long]
          exact laid.head
        · exact (Function.update_of_ne (distinct tail member).symm _ _).trans written
        · obtain rfl : tail = other := Option.some.inj (obtained.symm.trans found)
          exact Function.update_self _ _ _
        · have earlier : other.start ≠ tail.start := by
            intro same
            have sameIndex : i = state.obtained.length - 1 :=
              laid.index_unique found position (laid.has_start (List.mem_of_getElem? found))
                (same ▸ laid.has_start member)
            omega
          exact (Function.update_of_ne earlier _ _).trans
            (untouched _ (distinct other (List.mem_of_getElem? found)))
      · exact (Function.update_of_ne (outside tail (List.mem_append_left _ member)) _ _).trans
          (untouched x (outside _ (List.mem_append_right _ (List.mem_singleton_self _))))

end Allocate

theorem destroyLoop_eq {memory : Nat → Cell} {head : Option Nat} {nodes : List Nat}
    (chain : Chain (next memory) head nodes)
    (prefixes : ∀ node ∈ nodes, ∃ limit, memory node = .chunk (next memory node) limit)
    {fuel : Nat} (enough : nodes.length ≤ fuel) :
    destroyLoop memory fuel head = .ok nodes := by
  induction nodes generalizing head fuel with
  | nil =>
      obtain rfl : head = none := chain
      cases fuel <;> rfl
  | cons node rest inductionHypothesis =>
      obtain ⟨rfl, behind⟩ := chain
      obtain ⟨limit, stored⟩ := prefixes node (by simp)
      cases fuel with
      | zero => simp at enough
      | succ fuel =>
          have tail : destroyLoop memory fuel (next memory node) = .ok rest :=
            inductionHypothesis behind
              (fun other member => prefixes other (List.mem_cons_of_mem _ member))
              (by simpa using enough)
          rw [destroyLoop, stored]
          simp only [tail]
          rfl

/-- The destructor frees every chunk obtained, in the order of the allocations. -/
theorem Laid.destroy_eq {state : State} (laid : Laid state) :
    destroy state = .ok (state.obtained.map Region.start) := by
  refine destroyLoop_eq laid.chain (fun node member => ?_) (by simp)
  obtain ⟨region, obtained, rfl⟩ := List.mem_map.mp member
  obtain ⟨i, found⟩ := List.mem_iff_getElem?.mp obtained
  exact ⟨region.limit, by rw [next, laid.cell i region found]⟩

end NgrCore.Allocator
