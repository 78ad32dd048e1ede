import Mathlib.Data.Prod.Lex
import NgrCore.Allocator.Chunks

/-!
Owns `_M_push_stack_frame`: the loop ends, and the frame lies at or behind the place at
which the call began. A place is the index of a chunk and an address in it; places are
ordered by chunk first.
-/

namespace NgrCore.Allocator

/-- A chunk pointer and an address that stand in the chunk of an index. -/
def At (obtained : List Region) (held : Option Nat × Nat) (i : Nat) : Prop :=
  ∃ region, obtained[i]? = some region ∧ held.1 = some region.start ∧
    region.start + alignment ≤ held.2 ∧ held.2 ≤ region.limit ∧ alignment ∣ held.2

theorem At.append {obtained : List Region} {held : Option Nat × Nat} {i : Nat}
    (stands : At obtained held i) (more : List Region) : At (obtained ++ more) held i := by
  obtain ⟨region, found, rest⟩ := stands
  have inside := (List.getElem?_eq_some_iff.mp found).1
  exact ⟨region, by rw [List.getElem?_append_left inside, found], rest⟩

theorem Laid.at_start {state : State} (laid : Laid state) {i : Nat} {region : Region}
    (found : state.obtained[i]? = some region) :
    At state.obtained (some region.start, start region.start) i := by
  have member := List.mem_of_getElem? found
  have room := laid.room region member
  refine ⟨region, found, rfl, Nat.le_refl _, ?_, ?_⟩
  · unfold start Region.limit
    omega
  · exact Nat.dvd_add (laid.aligned region member) (Nat.dvd_refl _)

theorem At.unique {state : State} (laid : Laid state) {held : Option Nat × Nat} {i j : Nat}
    (first : At state.obtained held i) (second : At state.obtained held j) : i = j := by
  obtain ⟨region, here, cur, _⟩ := first
  obtain ⟨other, there, curToo, _⟩ := second
  have same : region.start = other.start := Option.some.inj (cur.symm.trans curToo)
  exact laid.index_unique here there (laid.has_start (List.mem_of_getElem? here))
    (same ▸ laid.has_start (List.mem_of_getElem? there))

/-- The frame fits behind the bump of the chunk of an index, or in a later chunk. -/
def RoomFrom (state : State) (n i : Nat) : Prop :=
  (∃ region, state.obtained[i]? = some region ∧ state.curBump + alignment + n ≤ region.limit) ∨
    ∃ j region, i < j ∧ state.obtained[j]? = some region ∧
      start region.start + alignment + n ≤ region.limit

/-- The frame fits in a chunk that the allocator has. -/
def HasRoom (state : State) (n : Nat) : Prop :=
  ∃ i, At state.obtained (state.curChunk, state.curBump) i ∧ RoomFrom state n i

/-- What the chunks obtained for `n` bytes plan for the next one does not wrap: the first,
and where that is not large enough, the second. -/
structure Plans (state : State) (n : Nat) : Prop where
  first : capacity state n * growthFactor < 2 ^ 64
  second : state.nextCap < n + alignment →
    capacity state n * growthFactor * growthFactor < 2 ^ 64

/-- No sum of `_M_push_stack_frame` wraps. -/
structure NoOverflow (state : State) (sz : Nat) : Prop where
  frame : alignment + sz + alignment ≤ 2 ^ 64
  chunks : ¬HasRoom state (frameSize sz) → Plans state (frameSize sz)

/-- The loop of `_M_push_stack_frame` in the chunk of an index. -/
def PlansFrom (state : State) (n i : Nat) : Prop := ¬RoomFrom state n i → Plans state n

section Loop

variable {n : Nat} {saved : Option Nat × Nat}

section Room

variable {state : State} {i : Nat}

theorem roomFrom_later {chunk : Nat} {region other : Region}
    (found : state.obtained[i]? = some region)
    (full : ¬state.curBump + alignment + n ≤ region.limit)
    (later : state.obtained[i + 1]? = some other) (enters : other.start = chunk) :
    RoomFrom (state.enter chunk) n (i + 1) ↔ RoomFrom state n i := by
  constructor
  · rintro (⟨same, here, fits⟩ | ⟨j, same, beyond, here, fits⟩)
    · obtain rfl : other = same := Option.some.inj (later.symm.trans here)
      exact .inr ⟨i + 1, other, Nat.lt_succ_self i, later, by rw [enters]; exact fits⟩
    · exact .inr ⟨j, same, Nat.lt_of_succ_lt beyond, here, fits⟩
  · rintro (⟨same, here, fits⟩ | ⟨j, same, beyond, here, fits⟩)
    · obtain rfl : region = same := Option.some.inj (found.symm.trans here)
      exact absurd fits full
    · rcases Nat.eq_or_lt_of_le (Nat.succ_le_of_lt beyond) with next | further
      · subst next
        obtain rfl : other = same := Option.some.inj (later.symm.trans here)
        exact .inl ⟨other, later, by rw [enters] at fits; exact fits⟩
      · exact .inr ⟨j, same, further, here, fits⟩

/-- A new chunk has room exactly when the capacity planned for it has. -/
theorem Allocated.roomFrom {grown : State} {chunk : Nat}
    (allocated : Allocated state n chunk grown) :
    RoomFrom (grown.enter chunk) n state.obtained.length ↔ n + alignment ≤ state.nextCap := by
  have found : (grown.enter chunk).obtained[state.obtained.length]? =
      some ⟨chunk, alignment + capacity state n⟩ := by
    change grown.obtained[state.obtained.length]? = _
    rw [allocated.obtained, List.getElem?_concat_length]
  have length : grown.obtained.length = state.obtained.length + 1 := by
    rw [allocated.obtained, List.length_append, List.length_singleton]
  constructor
  · rintro (⟨region, here, fits⟩ | ⟨j, region, beyond, here, fits⟩)
    · obtain rfl := Option.some.inj (found.symm.trans here)
      change chunk + alignment + alignment + n ≤ chunk + (alignment + capacity state n) at fits
      unfold capacity alignment at *
      omega
    · have inside : j < grown.obtained.length := (List.getElem?_eq_some_iff.mp here).1
      omega
  · intro large
    refine .inl ⟨_, found, ?_⟩
    change chunk + alignment + alignment + n ≤ chunk + (alignment + capacity state n)
    unfold capacity
    omega

theorem Allocated.plans {grown : State} {chunk : Nat} (allocated : Allocated state n chunk grown)
    (long : alignment ≤ n) :
    PlansFrom (grown.enter chunk) n state.obtained.length ↔ Plans state n := by
  have doubled : (grown.enter chunk).nextCap = capacity state n * growthFactor :=
    allocated.nextCap
  have same : capacity (grown.enter chunk) n = capacity state n * growthFactor := by
    unfold capacity at doubled ⊢
    rw [doubled]
    unfold growthFactor
    omega
  have large : n + alignment ≤ (grown.enter chunk).nextCap := by
    rw [doubled]
    unfold capacity growthFactor
    omega
  unfold PlansFrom
  rw [allocated.roomFrom]
  constructor
  · intro plans
    refine ⟨allocated.sum, fun small => ?_⟩
    have first := (plans (Nat.not_le_of_lt small)).first
    rwa [same] at first
  · intro plans small
    have second := plans.second (Nat.lt_of_not_le small)
    refine ⟨by rwa [same], fun tight => ?_⟩
    omega

end Room

/-- What a push of `n` bytes leaves when its loop began in the chunk of index `i` and
laid the frame at `bump`. -/
structure Pushed (n : Nat) (saved : Option Nat × Nat) (state : State) (i bump : Nat)
    (after : State) : Prop where
  grown : ∃ more, after.obtained = state.obtained ++ more
  laid : Laid after
  written : after.memory bump = .frame saved.1 saved.2
  keeps : ∀ x ≠ bump, (∀ region ∈ after.obtained, x ≠ region.start) →
    after.memory x = state.memory x
  place : ∃ j region, after.obtained[j]? = some region ∧
    after.curChunk = some region.start ∧ after.curBump = bump + n ∧
    region.start + alignment ≤ bump ∧ bump + alignment + n ≤ region.limit ∧
    alignment ∣ bump ∧ toLex (i, state.curBump) ≤ toLex (j, bump)

/-- A push seen from an earlier place, with fewer chunks. -/
theorem Pushed.of_later {state later after : State} {i bump : Nat}
    (pushed : Pushed n saved later (i + 1) bump after)
    (grown : ∃ more, later.obtained = state.obtained ++ more)
    (keeps : ∀ x, (∀ region ∈ later.obtained, x ≠ region.start) →
      later.memory x = state.memory x) : Pushed n saved state i bump after where
  grown := by
    obtain ⟨more, obtained⟩ := grown
    obtain ⟨others, further⟩ := pushed.grown
    exact ⟨more ++ others, by rw [further, obtained, List.append_assoc]⟩
  laid := pushed.laid
  written := pushed.written
  keeps x apart outside := by
    obtain ⟨others, further⟩ := pushed.grown
    rw [pushed.keeps x apart outside]
    refine keeps x fun region member => outside region ?_
    rw [further]
    exact List.mem_append_left _ member
  place := by
    obtain ⟨j, region, found, cur, top, front, fits, aligned, after⟩ := pushed.place
    refine ⟨j, region, found, cur, top, front, fits, aligned, ?_⟩
    have order : i + 1 < j ∨ i + 1 = j ∧ later.curBump ≤ bump := Prod.Lex.toLex_le_toLex.mp after
    exact Prod.Lex.toLex_le_toLex.mpr (.inl (show i < j by omega))

/-- The steps that the loop may still need: one for each later chunk, and for the new
ones, of which the second is large enough. -/
def Enough (state : State) (n i fuel : Nat) (region : Region) : Prop :=
  (state.curBump + alignment + n ≤ region.limit ∧ 1 ≤ fuel) ∨
    state.obtained.length - i + (if state.nextCap < n + alignment then 2 else 1) ≤ fuel

theorem Allocated.enough {state grown : State} {chunk i fuel : Nat}
    (allocated : Allocated state n chunk grown) (long : alignment ≤ n)
    (length : grown.obtained.length = i + 2)
    (left : 1 + (if state.nextCap < n + alignment then 2 else 1) ≤ fuel + 1) :
    Enough (grown.enter chunk) n (i + 1) fuel ⟨chunk, alignment + capacity state n⟩ := by
  have doubled := allocated.nextCap
  unfold capacity growthFactor at doubled
  by_cases large : n + alignment ≤ capacity state n
  · left
    change chunk + alignment + alignment + n ≤ chunk + (alignment + capacity state n) ∧ _
    split at left <;> omega
  · right
    unfold capacity at large
    change grown.obtained.length - (i + 1) +
      (if grown.nextCap < n + alignment then 2 else 1) ≤ fuel
    rw [if_neg (by omega), length]
    rw [if_pos (by omega)] at left
    omega

/-- The loop ends with the frame laid, unless a sum wraps. -/
theorem pushLoop_spec (heap : OperatorNew) (saved : Option Nat × Nat) (fuel : Nat)
    {state : State} {i : Nat} {region : Region} (laid : Laid state)
    (found : state.obtained[i]? = some region)
    (stands : At state.obtained (state.curChunk, state.curBump) i)
    (long : alignment ≤ n) (enough : Enough state n i fuel region) :
    (pushLoop heap n saved fuel state = .error .overflow ∧ ¬PlansFrom state n i) ∨
      PlansFrom state n i ∧ ∃ bump after,
        pushLoop heap n saved fuel state = .ok (bump + alignment, after) ∧
        Pushed n saved state i bump after := by
  induction fuel generalizing state i region with
  | zero =>
      have inside := (List.getElem?_eq_some_iff.mp found).1
      unfold Enough at enough
      split at enough <;> omega
  | succ fuel inductionHypothesis =>
      have inside := (List.getElem?_eq_some_iff.mp found).1
      have stored := laid.cell i region found
      obtain ⟨same, foundToo, cur, front, _, aligned⟩ := stands
      obtain rfl : region = same := Option.some.inj (found.symm.trans foundToo)
      replace cur : state.curChunk = some region.start := cur
      replace front : region.start + alignment ≤ state.curBump := front
      rw [pushLoop]
      simp only [cur, stored]
      by_cases fits : state.curBump + alignment + n ≤ region.limit
      · rw [if_pos fits]
        refine .inr ⟨fun full => (full (.inl ⟨region, found, fits⟩)).elim, ?_⟩
        have below : state.curBump < region.limit := by
          unfold alignment at long fits
          omega
        refine ⟨state.curBump, _, rfl, ⟨⟨[], (List.append_nil _).symm⟩, ?_,
          Function.update_self _ _ _, fun x apart _ => Function.update_of_ne apart _ _,
          i, region, found, cur, rfl, front, fits, aligned, le_rfl⟩⟩
        exact laid.congr rfl rfl fun other member =>
          Function.update_of_ne (laid.ne_start found front below member).symm _ _
      · rw [if_neg fits]
        unfold Enough at enough
        cases later : state.obtained[i + 1]? with
        | some other =>
            simp only [Option.map_some]
            have within := (List.getElem?_eq_some_iff.mp later).1
            have entered : Laid (state.enter other.start) := laid.congr rfl rfl fun _ _ => rfl
            have spec := inductionHypothesis entered later (laid.at_start later) <| by
              unfold Enough
              right
              change state.obtained.length - (i + 1) +
                (if state.nextCap < n + alignment then 2 else 1) ≤ fuel
              omega
            have plans : PlansFrom (state.enter other.start) n (i + 1) ↔ PlansFrom state n i :=
              imp_congr (roomFrom_later found fits later rfl).not
                ⟨fun plans => ⟨plans.first, plans.second⟩,
                  fun plans => ⟨plans.first, plans.second⟩⟩
            rw [plans] at spec
            refine spec.imp_right fun ⟨planned, bump, after, ran, pushed⟩ =>
              ⟨planned, bump, after, ran, ?_⟩
            exact pushed.of_later ⟨[], (List.append_nil _).symm⟩ fun _ _ => rfl
        | none =>
            simp only [Option.map_none]
            have atLast : state.obtained.length = i + 1 := by
              have beyond := List.getElem?_eq_none_iff.mp later
              omega
            have last : state.curChunk = state.obtained.getLast?.map Region.start := by
              rw [List.getLast?_eq_getElem?, atLast, Nat.add_sub_cancel, found, cur,
                Option.map_some]
            have full : ¬RoomFrom state n i := by
              rintro (⟨same, here, room⟩ | ⟨j, same, beyond, here, -⟩)
              · obtain rfl : region = same := Option.some.inj (found.symm.trans here)
                exact fits room
              · have within := (List.getElem?_eq_some_iff.mp here).1
                omega
            rcases allocateChunk_spec heap n laid last with
              ⟨wraps, long⟩ | ⟨chunk, grown, ran, allocated⟩
            · refine .inl ⟨by rw [wraps]; rfl, fun plans => ?_⟩
              have short := (plans full).first
              omega
            · have entered : Laid (grown.enter chunk) :=
                allocated.laid.congr rfl rfl fun _ _ => rfl
              have new : grown.obtained[i + 1]? =
                  some ⟨chunk, alignment + capacity state n⟩ := by
                rw [allocated.obtained, ← atLast]
                simp
              have grew : grown.obtained.length = i + 2 := by
                rw [allocated.obtained, List.length_append, atLast]
                rfl
              have spec := inductionHypothesis entered new (allocated.laid.at_start new) <|
                allocated.enough long grew (by omega)
              have plans : PlansFrom (grown.enter chunk) n (i + 1) ↔ PlansFrom state n i := by
                rw [← atLast, allocated.plans long]
                exact ⟨fun planned _ => planned, fun planned => planned full⟩
              rw [plans] at spec
              rw [ran]
              refine spec.imp_right fun ⟨planned, bump, after, ran, pushed⟩ =>
                ⟨planned, bump, after, ran, ?_⟩
              exact pushed.of_later ⟨_, allocated.obtained⟩ allocated.keeps

end Loop

section Push

variable (heap : OperatorNew) {state : State} {sz : Nat}

theorem frameSize_le (fits : alignment + sz + alignment ≤ 2 ^ 64) :
    alignment + sz ≤ frameSize sz :=
  RoundUp.le (k := 4) (by decide) fits

theorem alignment_dvd_frameSize (fits : alignment + sz + alignment ≤ 2 ^ 64) :
    alignment ∣ frameSize sz :=
  RoundUp.dvd (k := 4) (by decide) fits

theorem pushStackFrame_spec {i : Nat} (laid : Laid state)
    (stands : At state.obtained (state.curChunk, state.curBump) i) :
    (pushStackFrame heap state sz = .error .overflow ∧ ¬NoOverflow state sz) ∨
      NoOverflow state sz ∧ ∃ bump after,
        pushStackFrame heap state sz = .ok (bump + alignment, after) ∧
        Pushed (frameSize sz) (state.curChunk, state.curBump) state i bump after := by
  by_cases fits : alignment + sz + alignment ≤ 2 ^ 64
  · obtain ⟨region, found, cur, _⟩ := id stands
    replace cur : state.curChunk = some region.start := cur
    have inside := (List.getElem?_eq_some_iff.mp found).1
    have long := frameSize_le fits
    have spec := pushLoop_spec heap (state.curChunk, state.curBump)
      (state.obtained.length + 3) laid found stands
      (Nat.le_trans (Nat.le_add_right _ _) long) (.inr (by split <;> omega))
    have room : RoomFrom state (frameSize sz) i ↔ HasRoom state (frameSize sz) :=
      ⟨fun room => ⟨i, stands, room⟩, fun ⟨_, other, room⟩ => other.unique laid stands ▸ room⟩
    have plans : PlansFrom state (frameSize sz) i ↔ NoOverflow state sz :=
      ⟨fun planned => ⟨fits, fun none => planned (room.not.mpr none)⟩,
        fun sums none => sums.chunks (room.not.mp none)⟩
    rw [plans] at spec
    rw [pushStackFrame, if_neg (by omega)]
    simp only [cur] at spec ⊢
    exact spec
  · exact .inl ⟨if_pos (by omega), fun sums => fits sums.frame⟩

theorem pushStackFrame_first (laid : Laid state) (empty : state.obtained = [])
    (null : state.curChunk = none) :
    (pushStackFrame heap state sz = .error .overflow ∧ ¬NoOverflow state sz) ∨
      NoOverflow state sz ∧ ∃ chunk grown bump after,
        pushStackFrame heap state sz = .ok (bump + alignment, after) ∧
        Allocated state (frameSize sz) chunk grown ∧
        Pushed (frameSize sz) (some chunk, start chunk) (grown.enter chunk) 0 bump after := by
  by_cases fits : alignment + sz + alignment ≤ 2 ^ 64
  · have long := Nat.le_trans (Nat.le_add_right _ _) (frameSize_le fits)
    have last : state.curChunk = state.obtained.getLast?.map Region.start := by
      rw [null, empty]
      rfl
    have none : ¬HasRoom state (frameSize sz) := by
      rintro ⟨i, ⟨region, found, -⟩, -⟩
      rw [empty] at found
      simp at found
    rw [pushStackFrame, if_neg (by omega)]
    simp only [null]
    rcases allocateChunk_spec heap (frameSize sz) laid last with
      ⟨wraps, beyond⟩ | ⟨chunk, grown, ran, allocated⟩
    · refine .inl ⟨by rw [wraps]; rfl, fun sums => ?_⟩
      have short := (sums.chunks none).first
      omega
    · have new : grown.obtained[0]? =
          some ⟨chunk, alignment + capacity state (frameSize sz)⟩ := by
        rw [allocated.obtained, empty]
        rfl
      have entered : Laid (grown.enter chunk) := allocated.laid.congr rfl rfl fun _ _ => rfl
      have spec := pushLoop_spec heap (some chunk, start chunk) (grown.obtained.length + 3)
        entered new (allocated.laid.at_start new) long
        (.inr (show grown.obtained.length - 0 + _ ≤ _ by split <;> omega))
      have plans : PlansFrom (grown.enter chunk) (frameSize sz) 0 ↔ NoOverflow state sz := by
        have grew := allocated.plans long
        rw [empty] at grew
        refine Iff.trans grew ⟨fun planned => ⟨fits, fun _ => planned⟩, fun sums => ?_⟩
        exact sums.chunks none
      rw [plans] at spec
      rw [ran]
      exact spec.imp_right fun ⟨sums, bump, after, pushed, facts⟩ =>
        ⟨sums, chunk, grown, bump, after, pushed, allocated, facts⟩
  · exact .inl ⟨if_pos (by omega), fun sums => fits sums.frame⟩

end Push

end NgrCore.Allocator
