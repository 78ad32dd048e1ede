import NgrCore.Library.Tiling
import NgrCore.RemoteSource.Ring

/-!
Owns `__shared_block_subrange` with its 32-bit offset and length, and what splitting
prefixes off one leaves: the pieces, the rest and the use count of the block.
-/

namespace NgrCore.SharedBlock

open NgrCore.Library

structure Subrange where
  source : Addr
  offset : BitVec 32
  len : BitVec 32
deriving Repr, DecidableEq

/-- `__atomic_fetch_add` on the use count of a block. -/
def addUse (useCount : Addr → Int) (blk : Addr) (change : Int) : Addr → Int :=
  Function.update useCount blk (useCount blk + change)

namespace Subrange

/-- The bytes of the payload that `_M_iovec` hands out. -/
def span (x : Subrange) : Span := ⟨x.offset.toNat, x.len.toNat⟩

/-- `__splice_prefix`: the prefix, what the subrange becomes, and the use counts. -/
def splicePrefix (useCount : Addr → Int) (x : Subrange) (n : BitVec 32) :
    Subrange × Subrange × (Addr → Int) :=
  (⟨x.source, x.offset, n⟩, { x with offset := x.offset + n }, addUse useCount x.source 1)

/-- A sequence of calls of `__splice_prefix` on one subrange. -/
def splitAll (useCount : Addr → Int) (x : Subrange) :
    List (BitVec 32) → List Subrange × Subrange × (Addr → Int)
  | [] => ([], x, useCount)
  | n :: rest =>
      let (piece, remaining, counted) := x.splicePrefix useCount n
      let (pieces, last, counts) := splitAll counted remaining rest
      (piece :: pieces, last, counts)

/-- `__release` of every piece; what becomes of a block that is not used any more is not
modelled here. -/
def releaseAll (useCount : Addr → Int) (pieces : List Subrange) : Addr → Int :=
  pieces.foldl (fun counts piece => addUse counts piece.source (-1)) useCount

/-- The pieces partition the subrange. -/
structure Partitions (x : Subrange) (pieces : List Subrange) : Prop where
  source : ∀ piece ∈ pieces, piece.source = x.source
  contiguous : Span.Tiles x.offset.toNat (pieces.map span) (x.offset.toNat + x.len.toNat)
  apart : (pieces.map span).Pairwise Span.Apart
  covers : ∀ position, (∃ piece ∈ pieces, piece.span.Contains position) ↔
    x.span.Contains position
  length : (pieces.map fun piece => piece.len.toNat).sum = x.len.toNat

/-- The use count has grown by the number of calls, and releasing every piece gives back
the use that the subrange was. -/
structure Counted (useCount : Addr → Int) (x : Subrange) (ns : List (BitVec 32)) : Prop where
  grown : (x.splitAll useCount ns).2.2 = addUse useCount x.source ns.length
  balanced : releaseAll (x.splitAll useCount ns).2.2
    ((x.splitAll useCount ns).1 ++ [(x.splitAll useCount ns).2.1]) =
      addUse useCount x.source (-1)

/-- The calls partition the subrange and keep its use count. -/
structure Splits (useCount : Addr → Int) (x : Subrange) (ns : List (BitVec 32)) : Prop where
  partitions : x.Partitions ((x.splitAll useCount ns).1 ++ [(x.splitAll useCount ns).2.1])
  counted : x.Counted useCount ns

end Subrange

section Counts

variable {useCount : Addr → Int} {blk : Addr}

theorem addUse_addUse (first second : Int) :
    addUse (addUse useCount blk first) blk second = addUse useCount blk (first + second) := by
  simp only [addUse, Function.update_self, Function.update_idem, Int.add_assoc]

theorem addUse_zero : addUse useCount blk 0 = useCount := by
  simp [addUse]

end Counts

namespace Subrange

section Splitting

variable {useCount : Addr → Int} {x : Subrange} {ns : List (BitVec 32)} {n : BitVec 32}

theorem splitAll_cons : x.splitAll useCount (n :: ns) =
    (⟨x.source, x.offset, n⟩ ::
        (splitAll (addUse useCount x.source 1) { x with offset := x.offset + n } ns).1,
      (splitAll (addUse useCount x.source 1) { x with offset := x.offset + n } ns).2) := rfl

theorem splitAll_pieces_source : ∀ piece ∈ (x.splitAll useCount ns).1, piece.source = x.source := by
  induction ns generalizing x useCount with
  | nil =>
      intro piece member
      cases member
  | cons n rest inductionHypothesis =>
      intro piece member
      rw [splitAll_cons] at member
      rcases List.mem_cons.mp member with here | later
      · rw [here]
      · exact inductionHypothesis (x := { x with offset := x.offset + n }) piece later

theorem splitAll_pieces_len :
    ((x.splitAll useCount ns).1.map fun piece => piece.len) = ns := by
  induction ns generalizing x useCount with
  | nil => rfl
  | cons n rest inductionHypothesis =>
      rw [splitAll_cons, List.map_cons, inductionHypothesis]

theorem splitAll_remaining : (x.splitAll useCount ns).2.1.source = x.source ∧
    (x.splitAll useCount ns).2.1.len = x.len := by
  induction ns generalizing x useCount with
  | nil => exact ⟨rfl, rfl⟩
  | cons n rest inductionHypothesis => exact inductionHypothesis

theorem splitAll_source : ∀ piece ∈ (x.splitAll useCount ns).1 ++ [(x.splitAll useCount ns).2.1],
    piece.source = x.source := by
  intro piece member
  rcases List.mem_append.mp member with earlier | last
  · exact splitAll_pieces_source piece earlier
  · rw [List.mem_singleton.mp last]
    exact splitAll_remaining.1

/-- The lengths of the pieces, with that of what remains. -/
theorem sum_len : (((x.splitAll useCount ns).1 ++ [(x.splitAll useCount ns).2.1]).map
    fun piece => piece.len.toNat).sum = (ns.map BitVec.toNat).sum + x.len.toNat := by
  have lengths : ((x.splitAll useCount ns).1.map fun piece => piece.len.toNat) =
      ns.map BitVec.toNat := by
    have lens : ((x.splitAll useCount ns).1.map fun piece => piece.len) = ns :=
      splitAll_pieces_len
    have mapped := congrArg (List.map BitVec.toNat) lens
    rwa [List.map_map] at mapped
  rw [List.map_append, List.sum_append, lengths, List.map_singleton, List.sum_singleton,
    splitAll_remaining.2]

/-- While the offset does not wrap, the prefixes follow one another and what remains
begins where they end. -/
theorem splitAll_tiles (useCount : Addr → Int) (x : Subrange)
    (small : x.offset.toNat + (ns.map BitVec.toNat).sum < 2 ^ 32) :
    Span.Tiles x.offset.toNat ((x.splitAll useCount ns).1.map span)
        (x.offset.toNat + (ns.map BitVec.toNat).sum) ∧
      (x.splitAll useCount ns).2.1.offset.toNat =
        x.offset.toNat + (ns.map BitVec.toNat).sum := by
  induction ns generalizing x useCount with
  | nil => exact ⟨rfl, rfl⟩
  | cons n rest inductionHypothesis =>
      rw [List.map_cons, List.sum_cons] at small ⊢
      have moved : (x.offset + n).toNat = x.offset.toNat + n.toNat := by
        rw [BitVec.toNat_add]
        exact Nat.mod_eq_of_lt (by omega)
      have later := inductionHypothesis (addUse useCount x.source 1)
        { x with offset := x.offset + n } (by rw [moved]; omega)
      rw [splitAll_cons, ← Nat.add_assoc]
      rw [moved] at later
      exact ⟨⟨rfl, later.1⟩, later.2⟩

theorem releaseAll_source (pieces : List Subrange) {blk : Addr}
    (source : ∀ piece ∈ pieces, piece.source = blk) :
    releaseAll useCount pieces = addUse useCount blk (-pieces.length) := by
  induction pieces generalizing useCount with
  | nil => exact addUse_zero.symm
  | cons piece rest inductionHypothesis =>
      rw [releaseAll, List.foldl_cons, source piece List.mem_cons_self]
      refine (inductionHypothesis fun other member =>
        source other (List.mem_cons_of_mem piece member)).trans ?_
      rw [addUse_addUse, List.length_cons]
      congr 1
      omega

theorem splitAll_grown : (x.splitAll useCount ns).2.2 = addUse useCount x.source ns.length := by
  induction ns generalizing x useCount with
  | nil => exact addUse_zero.symm
  | cons n rest inductionHypothesis =>
      rw [splitAll_cons]
      refine inductionHypothesis.trans ?_
      rw [addUse_addUse, List.length_cons]
      congr 1
      omega

theorem counted (useCount : Addr → Int) (x : Subrange) (ns : List (BitVec 32)) :
    x.Counted useCount ns := by
  refine ⟨splitAll_grown, ?_⟩
  have lengths : (x.splitAll useCount ns).1.length = ns.length := by
    rw [← List.length_map fun piece => piece.len, splitAll_pieces_len]
  rw [releaseAll_source _ splitAll_source, splitAll_grown, addUse_addUse, List.length_append,
    List.length_singleton, lengths]
  congr 1
  omega

theorem partitions_of_tiles {pieces : List Subrange}
    (source : ∀ piece ∈ pieces, piece.source = x.source)
    (tiles : Span.Tiles x.offset.toNat (pieces.map span) (x.offset.toNat + x.len.toNat)) :
    x.Partitions pieces where
  source := source
  contiguous := tiles
  apart := tiles.apart
  covers position := by
    have mapped : (∃ part ∈ pieces.map span, part.Contains position) ↔
        ∃ piece ∈ pieces, piece.span.Contains position := by simp
    rw [← mapped]
    exact tiles.covers position
  length := by
    have whole := tiles.length_eq
    rw [List.map_map] at whole
    exact Nat.add_left_cancel whole

/-- The pieces and what remains partition the subrange if and only if every prefix is
empty; the use count is right in any case. -/
theorem splits_iff (useCount : Addr → Int) (x : Subrange) (ns : List (BitVec 32)) :
    x.Splits useCount ns ↔ ∀ n ∈ ns, n = 0 := by
  have nothing : (∀ n ∈ ns, n = 0) ↔ (ns.map BitVec.toNat).sum = 0 := by
    rw [List.sum_eq_zero_iff_forall_eq_nat, List.forall_mem_map]
    exact forall₂_congr fun n _ => BitVec.toNat_eq.trans Iff.rfl
  rw [nothing]
  constructor
  · intro splits
    have whole := splits.partitions.length
    rw [sum_len] at whole
    omega
  · intro nothing
    have small : x.offset.toNat + (ns.map BitVec.toNat).sum < 2 ^ 32 := by
      rw [nothing]
      exact x.offset.isLt
    have tiles := splitAll_tiles useCount x small
    rw [nothing, Nat.add_zero] at tiles
    refine ⟨partitions_of_tiles splitAll_source ?_, counted useCount x ns⟩
    rw [List.map_append]
    refine tiles.1.append ⟨tiles.2, ?_⟩
    rw [span, splitAll_remaining.2]
    rfl

/-- Forty bytes off a hundred: what remains begins at the fortieth and is still a hundred
long. -/
theorem not_splits_forty : ¬ Splits (fun _ => 1) ⟨0, 0, 100⟩ [40] :=
  fun splits => absurd splits.partitions.length (by decide)

end Splitting

end Subrange

end NgrCore.SharedBlock
