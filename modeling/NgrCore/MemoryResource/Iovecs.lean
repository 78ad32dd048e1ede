import NgrCore.Library.Tiling
import NgrCore.MemoryResource.Conservation
import NgrCore.MemoryResource.Refinement

/-!
Owns the bytes that `__acquire` hands out as `iovec`s from the pool: where they are mapped,
and that nobody else has a byte of them.

What is known of the subranges of a block, from the local sources, is put together with the
places of the mappings and of the blocks in them.
-/

namespace NgrCore.MemoryResource

open NgrCore.Library NgrCore.RemoteSource
open NgrCore.LocalSource (Subrange)

section Definitions

/-- `__GCC_DESTRUCTIVE_SIZE`, the offset of `__data_` in a `__block`. -/
def dataOffset : Nat := 64

/-- `__use_count_`, `__next_` and the reserved bytes of a block. -/
def header (blk : Addr) : Span := ⟨blk, dataOffset⟩

def wholeBlock (blk : Addr) : Span := ⟨blk, dataOffset + 4096⟩

def iovec (x : Subrange) : Span := ⟨x.source + dataOffset + x.offset, x.len⟩

variable {Thread : Type}

/-- Nobody else has a byte of a live `iovec`: another `iovec`, the header of a block, an unused
block, or the construction of new blocks. -/
structure Exclusive (s : State Thread) : Prop where
  mapped : ∀ x ∈ s.heap.live, ∃ p ∈ s.mapped,
    p + 4096 ≤ (iovec x).start ∧ (iovec x).start + (iovec x).length ≤ p + V
  apart : s.heap.live.Pairwise fun x y => (iovec x).Apart (iovec y)
  headers : ∀ x ∈ s.heap.live, ∀ blk, s.Created blk → (header blk).Apart (iovec x)
  unused : ∀ x ∈ s.heap.live, ∀ blk, s.Created blk → s.heap.useCount blk = 0 →
    (wholeBlock blk).Apart (iovec x)
  constructing : ∀ x ∈ s.heap.live, ∀ t p, (s.remote t).region = some p →
    (⟨p, V⟩ : Span).Apart (iovec x)

end Definitions

section Spans

variable {Thread : Type} {s : State Thread} {x y : Subrange} {blk other : Addr}

end Spans

section Exclusive

variable {Thread : Type} {s : State Thread} {lost : List Addr}

variable [DecidableEq Thread]

end Exclusive

end NgrCore.MemoryResource
