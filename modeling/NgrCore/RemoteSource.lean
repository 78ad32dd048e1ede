import Mathlib.Data.BitVec
import Mathlib.Data.List.Basic

/-!
Owns the packed counters of `__remote_source::__state_`: the number of published
batches in the lower half of the word and the number of popped batches in the upper
half, advanced by plain additions of their strides.

Proves what `__convert` reads after any run, and that the two counters are
independent exactly as long as the lower half has not overflowed.
-/

namespace NgrCore.RemoteSource

structure Descriptor where
  head : BitVec 32 := 0
  tail : BitVec 32 := 0
deriving Repr, DecidableEq

def headStride : BitVec 64 := 1

def tailStride : BitVec 64 := 1 <<< 32

def convert (m : BitVec 64) : Descriptor where
  head := m.setWidth 32
  tail := (m >>> 32).setWidth 32

/-- The word after some publications and pops. -/
def packed (published popped : Nat) : BitVec 64 := BitVec.ofNat 64 (published + popped * 2 ^ 32)

theorem packed_publish (published popped : Nat) :
    packed published popped + headStride = packed (published + 1) popped := by
  unfold packed headStride
  rw [show (1 : BitVec 64) = BitVec.ofNat 64 1 from rfl, ← BitVec.ofNat_add]
  congr 1
  omega

theorem packed_pop (published popped : Nat) :
    packed published popped + tailStride = packed published (popped + 1) := by
  unfold packed tailStride
  rw [show (1 <<< 32 : BitVec 64) = BitVec.ofNat 64 (2 ^ 32) from rfl, ← BitVec.ofNat_add]
  congr 1
  omega

/-- Each overflow of the lower half carries into the upper half. -/
theorem convert_packed (published popped : Nat) : convert (packed published popped) =
    ⟨BitVec.ofNat 32 published, BitVec.ofNat 32 (popped + published / 2 ^ 32)⟩ := by
  unfold convert packed
  congr 1
  · apply BitVec.eq_of_toNat_eq
    simp only [BitVec.toNat_setWidth, BitVec.toNat_ofNat]
    omega
  · apply BitVec.eq_of_toNat_eq
    simp only [BitVec.toNat_setWidth, BitVec.toNat_ushiftRight, BitVec.toNat_ofNat,
      Nat.shiftRight_eq_div_pow]
    omega

/-! ### Runs of publications and pops -/

/-- The addition of a stride. -/
inductive Advance
  | publish
  | pop
deriving Repr, DecidableEq

def Advance.stride : Advance → BitVec 64
  | .publish => headStride
  | .pop => tailStride

/-- `__state_` after a run from 0. -/
def word (run : List Advance) : BitVec 64 :=
  run.foldl (fun state advance => state + advance.stride) 0

def published (run : List Advance) : Nat := run.count .publish

def popped (run : List Advance) : Nat := run.count .pop

/-- Pops never exceed publications. -/
def Balanced (run : List Advance) : Prop :=
  ∀ earlier, earlier <+: run → popped earlier ≤ published earlier

/-- At every point of the run the two counters are independent, and equal exactly
when no batch is available. -/
structure Independent (run : List Advance) : Prop where
  counts : ∀ earlier, earlier <+: run → convert (word earlier) =
    ⟨BitVec.ofNat 32 (published earlier), BitVec.ofNat 32 (popped earlier)⟩
  untouched : ∀ earlier, earlier ++ [.publish] <+: run →
    (convert (word (earlier ++ [.publish]))).tail = (convert (word earlier)).tail
  empty : ∀ earlier, earlier <+: run → published earlier - popped earlier < 2 ^ 32 →
    ((convert (word earlier)).head = (convert (word earlier)).tail ↔
      published earlier = popped earlier)

theorem word_eq (run : List Advance) : word run = packed (published run) (popped run) := by
  induction run using List.reverseRecOn with
  | nil => rfl
  | append_singleton run last inductionHypothesis =>
      rw [word, List.foldl_append]
      change word run + last.stride = _
      rw [inductionHypothesis]
      cases last with
      | publish => simpa [published, popped, Advance.stride] using packed_publish _ _
      | pop => simpa [published, popped, Advance.stride] using packed_pop _ _

theorem convert_word (run : List Advance) : convert (word run) =
    ⟨BitVec.ofNat 32 (published run),
      BitVec.ofNat 32 (popped run + published run / 2 ^ 32)⟩ := by
  rw [word_eq, convert_packed]

theorem ofNat_eq_iff {first second : Nat} (ordered : second ≤ first)
    (near : first - second < 2 ^ 32) :
    BitVec.ofNat 32 first = BitVec.ofNat 32 second ↔ first = second := by
  rw [← BitVec.toNat_inj, BitVec.toNat_ofNat, BitVec.toNat_ofNat]
  omega

theorem published_mono {earlier run : List Advance} (front : earlier <+: run) :
    published earlier ≤ published run :=
  front.sublist.count_le _

/-- A run that publishes enough has a point at which it has published exactly that
much. -/
theorem exists_published {run : List Advance} {total : Nat} (enough : total ≤ published run) :
    ∃ earlier, earlier <+: run ∧ published earlier = total := by
  induction run using List.reverseRecOn with
  | nil =>
      refine ⟨[], List.prefix_rfl, ?_⟩
      simpa [published, eq_comm] using enough
  | append_singleton run last inductionHypothesis =>
      by_cases before : total ≤ published run
      · rcases inductionHypothesis before with ⟨earlier, front, exactly⟩
        exact ⟨earlier, front.trans (List.prefix_append _ _), exactly⟩
      · refine ⟨run ++ [last], List.prefix_rfl, ?_⟩
        have grown : published (run ++ [last]) ≤ published run + 1 := by
          rw [published, List.count_append]
          exact Nat.add_le_add_left List.count_le_length _
        omega

/-- With no overflow the counters are independent. -/
theorem independent_of_short {run : List Advance} (balanced : Balanced run)
    (short : published run < 2 ^ 32) : Independent run := by
  have exactly : ∀ earlier, earlier <+: run → convert (word earlier) =
      ⟨BitVec.ofNat 32 (published earlier), BitVec.ofNat 32 (popped earlier)⟩ := by
    intro earlier front
    have shorter := published_mono front
    rw [convert_word, Nat.div_eq_of_lt (by omega), Nat.add_zero]
  refine ⟨exactly, ?_, ?_⟩
  · intro earlier front
    rw [exactly _ front, exactly _ ((List.prefix_append _ _).trans front)]
    simp [popped]
  · intro earlier front near
    rw [exactly _ front]
    exact ofNat_eq_iff (balanced _ front) near

/-- The publication that overflows the lower half changes the tail. -/
theorem not_independent_of_long {run : List Advance} (long : 2 ^ 32 ≤ published run) :
    ¬ Independent run := by
  intro independent
  rcases exists_published long with ⟨earlier, front, exactly⟩
  have tail := congrArg Descriptor.tail (independent.counts earlier front)
  rw [convert_word, exactly] at tail
  have carried := congrArg BitVec.toNat tail
  simp only [BitVec.toNat_ofNat] at carried
  omega

theorem independent_iff_short {run : List Advance} (balanced : Balanced run) :
    Independent run ↔ published run < 2 ^ 32 :=
  ⟨fun independent => Nat.not_le.mp fun long => not_independent_of_long long independent,
    independent_of_short balanced⟩

/-- A batch is published and popped, any number of times. -/
def alternating (rounds : Nat) : List Advance :=
  (List.replicate rounds [Advance.publish, .pop]).flatten

theorem alternating_published (rounds : Nat) : published (alternating rounds) = rounds := by
  induction rounds with
  | zero => rfl
  | succ rounds inductionHypothesis =>
      rw [alternating, List.replicate_succ, List.flatten_cons, published, List.count_append]
      change 1 + published (alternating rounds) = _
      omega

theorem alternating_balanced (rounds : Nat) : Balanced (alternating rounds) := by
  induction rounds with
  | zero =>
      intro earlier front
      rw [alternating, List.replicate_zero, List.flatten_nil, List.prefix_nil] at front
      rw [front]
      exact Nat.le_refl _
  | succ rounds inductionHypothesis =>
      intro earlier front
      rw [alternating, List.replicate_succ, List.flatten_cons] at front
      match earlier, front with
      | [], _ => exact Nat.le_refl _
      | [_], front =>
          simp at front
          subst front
          decide
      | first :: second :: rest, front =>
          simp at front
          obtain ⟨rfl, rfl, front⟩ := front
          have shorter := inductionHypothesis rest front
          simp only [popped, published, List.count_cons] at shorter ⊢
          simpa using shorter

/-- A run of `2 ^ 32` publications, each followed by a pop: pops never exceed
publications, and yet the counters are not independent. -/
theorem carry_moves_tail :
    ¬ ∀ run, Balanced run → Independent run := by
  intro every
  refine not_independent_of_long ?_ (every (alternating (2 ^ 32)) (alternating_balanced _))
  rw [alternating_published]

theorem independent_alternating : Independent (alternating 3) :=
  (independent_iff_short (alternating_balanced 3)).mpr (by decide)

end NgrCore.RemoteSource
