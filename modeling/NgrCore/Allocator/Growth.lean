import NgrCore.Allocator.Discipline

/-!
Owns the number of chunks that one `_M_push_stack_frame` obtains, and when the first of
them is large enough for the frame.
-/

namespace NgrCore.Allocator

open Library

/-- At most one chunk is obtained, and the chunk obtained has room for the frame behind
its own prefix. -/
structure BoundedWork (state : State) (n : Nat) (after : State) : Prop where
  atMostOne : after.obtained.length ≤ state.obtained.length + 1
  large : ∀ region, after.obtained[state.obtained.length]? = some region →
    start region.start + alignment + n ≤ region.limit

section Loop

variable {n : Nat} {saved : Option Nat × Nat} {state after : State} {i : Nat}

/-- What a push obtains when its loop began in the chunk of an index. -/
inductive Growth (n : Nat) (state : State) (i : Nat) (after : State) : Prop
  | none (room : RoomFrom state n i) (obtained : after.obtained = state.obtained)
  | one (full : ¬RoomFrom state n i) (large : n + alignment ≤ state.nextCap) (chunk : Nat)
      (obtained : after.obtained =
        state.obtained ++ [⟨chunk, alignment + capacity state n⟩])
  | more (full : ¬RoomFrom state n i) (small : state.nextCap < n + alignment)
      (chunk : Nat) (others : List Region) (some : others ≠ [])
      (obtained : after.obtained =
        state.obtained ++ ⟨chunk, alignment + capacity state n⟩ :: others)

/-- What the loop obtains when it began in a chunk obtained last. -/
theorem Allocated.growth {grown : State} {chunk : Nat}
    (allocated : Allocated state n chunk grown) (full : ¬RoomFrom state n i)
    (growth : Growth n (grown.enter chunk) state.obtained.length after) :
    Growth n state i after := by
  have joined : ∀ others, (grown.enter chunk).obtained ++ others =
      state.obtained ++ ⟨chunk, alignment + capacity state n⟩ :: others := by
    intro others
    change grown.obtained ++ others = _
    rw [allocated.obtained, List.append_assoc]
    rfl
  cases growth with
  | none room obtained =>
      exact .one full (allocated.roomFrom.mp room) chunk (obtained.trans allocated.obtained)
  | one tight _ other obtained =>
      have small := Nat.lt_of_not_le (allocated.roomFrom.not.mp tight)
      exact .more full small chunk _ (List.cons_ne_nil _ _) (obtained.trans (joined _))
  | more tight _ other others _ obtained =>
      have small := Nat.lt_of_not_le (allocated.roomFrom.not.mp tight)
      exact .more full small chunk _ (List.cons_ne_nil _ _) (obtained.trans (joined _))

theorem pushLoop_growth (heap : OperatorNew) (saved : Option Nat × Nat) (fuel : Nat)
    {region : Region} {address : Nat} (laid : Laid state)
    (found : state.obtained[i]? = some region)
    (stands : At state.obtained (state.curChunk, state.curBump) i)
    (ran : pushLoop heap n saved fuel state = .ok (address, after)) : Growth n state i after := by
  induction fuel generalizing state i region with
  | zero => cases ran
  | succ fuel inductionHypothesis =>
      have inside := (List.getElem?_eq_some_iff.mp found).1
      have stored := laid.cell i region found
      obtain ⟨same, foundToo, cur, _⟩ := stands
      obtain rfl : region = same := Option.some.inj (found.symm.trans foundToo)
      replace cur : state.curChunk = some region.start := cur
      rw [pushLoop] at ran
      simp only [cur, stored] at ran
      by_cases fits : state.curBump + alignment + n ≤ region.limit
      · rw [if_pos fits] at ran
        obtain ⟨-, rfl⟩ := Prod.mk.inj (Except.ok.inj ran)
        exact .none (.inl ⟨region, found, fits⟩) rfl
      · rw [if_neg fits] at ran
        cases later : state.obtained[i + 1]? with
        | some other =>
            simp only [later, Option.map_some] at ran
            have entered : Laid (state.enter other.start) := laid.congr rfl rfl fun _ _ => rfl
            have growth := inductionHypothesis entered later (laid.at_start later) ran
            have room := roomFrom_later found fits later rfl
            cases growth with
            | none here obtained => exact .none (room.mp here) obtained
            | one full large chunk obtained => exact .one (room.not.mp full) large chunk obtained
            | more full small chunk others some obtained =>
                exact .more (room.not.mp full) small chunk others some obtained
        | none =>
            simp only [later, Option.map_none] at ran
            have atLast : state.obtained.length = i + 1 := by
              have beyond := List.getElem?_eq_none_iff.mp later
              omega
            have last : state.curChunk = state.obtained.getLast?.map Region.start := by
              rw [List.getLast?_eq_getElem?, atLast, Nat.add_sub_cancel, found, cur,
                Option.map_some]
            have full : ¬RoomFrom state n i := by
              rintro (⟨same, here, room⟩ | ⟨j, same, beyond, here, -⟩)
              · obtain rfl : region = same := Option.some.inj (found.symm.trans here)
                exact fits room
              · have within := (List.getElem?_eq_some_iff.mp here).1
                omega
            rcases allocateChunk_spec heap n laid last with
              ⟨wraps, -⟩ | ⟨chunk, grown, called, allocated⟩
            · rw [wraps] at ran
              cases ran
            · rw [called] at ran
              have entered : Laid (grown.enter chunk) :=
                allocated.laid.congr rfl rfl fun _ _ => rfl
              have new : grown.obtained[state.obtained.length]? =
                  some ⟨chunk, alignment + capacity state n⟩ := by
                rw [allocated.obtained, List.getElem?_concat_length]
              exact allocated.growth full
                (inductionHypothesis entered new (allocated.laid.at_start new) ran)

theorem Growth.boundedWork (growth : Growth n state i after) :
    BoundedWork state n after ↔ RoomFrom state n i ∨ n + alignment ≤ state.nextCap := by
  cases growth with
  | none room obtained =>
      refine iff_of_true ⟨?_, fun region found => ?_⟩ (.inl room)
      · rw [obtained]
        exact Nat.le_succ _
      · rw [obtained, List.getElem?_eq_none (Nat.le_refl _)] at found
        cases found
  | one full large chunk obtained =>
      refine iff_of_true ⟨?_, fun region found => ?_⟩ (.inr large)
      · rw [obtained, List.length_append, List.length_singleton]
      · rw [obtained, List.getElem?_concat_length] at found
        obtain rfl := Option.some.inj found
        unfold capacity start Region.limit
        dsimp only
        omega
  | more full small chunk others some obtained =>
      refine iff_of_false (fun bounded => ?_) fun either => ?_
      · have atMostOne := bounded.atMostOne
        have long := List.length_pos_iff.mpr some
        rw [obtained, List.length_append, List.length_cons] at atMostOne
        omega
      · rcases either with room | large
        · exact full room
        · omega

end Loop

section Push

variable {heap : OperatorNew} {machine : Machine} {sz address : Nat} {after : State}

theorem Inv.growth (inv : Inv machine)
    (ran : pushStackFrame heap machine.allocator sz = .ok (address, after)) :
    ∃ i, Growth (frameSize sz) machine.allocator i after ∧
      (RoomFrom machine.allocator (frameSize sz) i ↔
        HasRoom machine.allocator (frameSize sz)) := by
  have fits : ¬2 ^ 64 < alignment + sz + alignment := by
    intro wraps
    rw [pushStackFrame, if_pos wraps] at ran
    cases ran
  rw [pushStackFrame, if_neg fits] at ran
  rcases inv.stack with ⟨empty, null, -⟩ | ⟨i, first, extents, -, stands, -⟩
  · have full : ¬RoomFrom machine.allocator (frameSize sz) 0 := by
      unfold RoomFrom
      rw [empty]
      rintro (⟨region, found, -⟩ | ⟨j, region, -, found, -⟩) <;> simp at found
    have none : ¬HasRoom machine.allocator (frameSize sz) := by
      rintro ⟨i, ⟨region, found, -⟩, -⟩
      rw [empty] at found
      simp at found
    have last : machine.allocator.curChunk =
        machine.allocator.obtained.getLast?.map Region.start := by
      rw [null, empty]
      rfl
    simp only [null] at ran
    rcases allocateChunk_spec heap (frameSize sz) inv.laid last with
      ⟨wraps, -⟩ | ⟨chunk, grown, called, allocated⟩
    · rw [wraps] at ran
      cases ran
    · rw [called] at ran
      have entered : Laid (grown.enter chunk) := allocated.laid.congr rfl rfl fun _ _ => rfl
      have new : grown.obtained[machine.allocator.obtained.length]? =
          some ⟨chunk, alignment + capacity machine.allocator (frameSize sz)⟩ := by
        rw [allocated.obtained, List.getElem?_concat_length]
      exact ⟨0, allocated.growth full
        (pushLoop_growth heap _ _ entered new (allocated.laid.at_start new) ran),
        iff_of_false full none⟩
  · obtain ⟨region, found, cur, -⟩ := id stands
    replace cur : machine.allocator.curChunk = some region.start := cur
    simp only [cur] at ran
    refine ⟨i, pushLoop_growth heap _ _ inv.laid found stands ran,
      fun room => ⟨i, stands, room⟩, ?_⟩
    rintro ⟨j, standsToo, room⟩
    exact standsToo.unique inv.laid stands ▸ room

/-- In every run a push of which no sum wraps ends with the frame laid; it obtains at most
one chunk, and one large enough, if and only if the allocator has room for the frame or its
next capacity covers the frame with a second prefix. -/
theorem push_boundedWork (reachable : (system heap).Reachable machine)
    (sums : NoOverflow machine.allocator sz) :
    ∃ address after, pushStackFrame heap machine.allocator sz = .ok (address, after) ∧
      (BoundedWork machine.allocator (frameSize sz) after ↔
        HasRoom machine.allocator (frameSize sz) ∨
          frameSize sz + alignment ≤ machine.allocator.nextCap) := by
  have inv := inv_of_reachable reachable
  obtain ⟨_, address, after, ran⟩ := (inv.push_ok heap sz).resolve_left fun wraps => wraps.2 sums
  obtain ⟨i, growth, room⟩ := inv.growth ran
  exact ⟨address, after, ran, by rw [growth.boundedWork, room]⟩

/-- A frame that does not fit behind the one there, in a chunk that the next capacity makes
large enough. -/
theorem push_boundedWork_second : ∃ machine : Machine, (system ascending).Reachable machine ∧
    machine.live.length = 1 ∧ machine.allocator.obtained.length = 1 ∧
    ¬HasRoom machine.allocator (frameSize 1500) ∧
    ∃ address after, pushStackFrame ascending machine.allocator 1500 = .ok (address, after) ∧
      after.obtained.length = 2 ∧
      (BoundedWork machine.allocator (frameSize 1500) after ↔
        HasRoom machine.allocator (frameSize 1500) ∨
          frameSize 1500 + alignment ≤ machine.allocator.nextCap) := by
  have empty : (system ascending).Reachable { allocator := { memory := fun _ => .raw } } :=
    .init ⟨_, rfl⟩
  have first := empty.step (@Step.push ascending _ _ 40 _ rfl)
  obtain ⟨address, after, ran, work⟩ := push_boundedWork first
    (show NoOverflow _ 1500 from ⟨by decide, fun _ => ⟨by decide, by decide⟩⟩)
  refine ⟨_, first, rfl, rfl, ?_, address, after, ran, ?_, work⟩
  · rintro ⟨i, -, ⟨region, found, fits⟩ | ⟨j, region, beyond, found, -⟩⟩
    · cases i with
      | zero =>
          obtain rfl := Option.some.inj found
          exact absurd fits (by decide)
      | succ => cases found
    · cases j with
      | zero => exact absurd beyond (Nat.not_lt_zero i)
      | succ => cases found
  · obtain ⟨-, rfl⟩ := Prod.mk.inj (Except.ok.inj ran)
    rfl

/-- The first frame, of the size that fills the first chunk: two chunks are obtained. -/
theorem not_boundedWork_first : ∃ machine : Machine, (system ascending).Reachable machine ∧
    ∃ address after, pushStackFrame ascending machine.allocator 1008 = .ok (address, after) ∧
      ¬BoundedWork machine.allocator (frameSize 1008) after := by
  refine ⟨{ allocator := { memory := fun _ => .raw } }, .init ⟨_, rfl⟩, _, _, rfl, ?_⟩
  exact fun bounded => absurd bounded.atMostOne (by decide)

end Push

end NgrCore.Allocator
