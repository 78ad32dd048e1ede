import NgrCore.SchedulerBase.Construction

/-!
Proves that the two rings are read and written inside the mappings of the scheduler: the
sizes that the constructor computes cover every address that `__submission_queue` and
`__completion_queue` form, for every value of the counters, whether the completion queue has a
mapping of its own or not.
-/

namespace NgrCore.SchedulerBase

open NgrCore.Library

/-! ### The addresses -/

/-- `__cq_region_ ? __cq_region_ : __sq_region_`. -/
def cqBase (sq cq : MemoryMappedRegion) : MemoryMappedRegion := if cq.data ≠ 0 then cq else sq

/-- What the queues access: the counters and the masks, the index and the SQE of a tail, and
the CQE of a head. -/
inductive Access
  | sqHead
  | sqTail
  | sqRingMask
  | array (tail : BitVec 32)
  | sqe (tail : BitVec 32)
  | cqHead
  | cqTail
  | cqRingMask
  | cqe (head : BitVec 32)

/-- The address of an access and its number of bytes, with the masks that have been read from
the rings. -/
def Access.bytes (params : IoUringParams) (sq cq sqe : MemoryMappedRegion)
    (sqMask cqMask : BitVec 32) : Access → Addr × Nat
  | .sqHead => (sq.data + params.sqOff.head.toNat, 4)
  | .sqTail => (sq.data + params.sqOff.tail.toNat, 4)
  | .sqRingMask => (sq.data + params.sqOff.ringMask.toNat, 4)
  | .array tail => (sq.data + params.sqOff.array.toNat + slot sqMask tail * 4, 4)
  | .sqe tail => (sqe.data + slot sqMask tail * 64, 64)
  | .cqHead => ((cqBase sq cq).data + params.cqOff.head.toNat, 4)
  | .cqTail => ((cqBase sq cq).data + params.cqOff.tail.toNat, 4)
  | .cqRingMask => ((cqBase sq cq).data + params.cqOff.ringMask.toNat, 4)
  | .cqe head => ((cqBase sq cq).data + params.cqOff.cqes.toNat + slot cqMask head * 16, 16)

/-- The bytes lie in a mapping that one of the members holds. -/
def MappedBytes (world : World) (bytes : Addr × Nat) : Prop :=
  ∃ name region, world.objects.value name = some (.region region) ∧ region.data ≠ 0 ∧
    region.data ≤ bytes.1 ∧ bytes.1 + bytes.2 ≤ region.data + region.size

/-- What the kernel says of the rings: the entries are powers of two within its limits, the
masks are those of the entries, and the arrays come after the counters. -/
structure RingLayout (params : IoUringParams) (sqShape cqShape : RingShape) : Prop where
  sqEntries : params.sqEntries = sqShape.nSlot
  cqEntries : params.cqEntries = cqShape.nSlot
  sqLimit : sqShape.size ≤ 32768
  cqLimit : cqShape.size ≤ 65536
  sqHead : params.sqOff.head.toNat + 4 ≤ params.sqOff.array.toNat
  sqTail : params.sqOff.tail.toNat + 4 ≤ params.sqOff.array.toNat
  sqRingMask : params.sqOff.ringMask.toNat + 4 ≤ params.sqOff.array.toNat
  array : params.sqOff.array.toNat ≤ 2 ^ 31
  cqHead : params.cqOff.head.toNat + 4 ≤ params.cqOff.cqes.toNat
  cqTail : params.cqOff.tail.toNat + 4 ≤ params.cqOff.cqes.toNat
  cqRingMask : params.cqOff.ringMask.toNat + 4 ≤ params.cqOff.cqes.toNat
  cqes : params.cqOff.cqes.toNat ≤ 2 ^ 31

/-! ### The sizes -/

section Sizes

variable {params : IoUringParams} {sqShape cqShape : RingShape}
  {sq cq sqe : MemoryMappedRegion}

theorem slot_lt (shape : RingShape) (value : BitVec 32) : slot shape.mask value < shape.size := by
  rw [← counter_of_toNat value, slot_counter]
  exact Nat.mod_lt _ shape.size_pos

theorem umax_toNat (first second : BitVec 32) :
    (umax first second).toNat = max first.toNat second.toNat := by
  unfold umax
  split
  · next less => exact (Nat.max_eq_right (BitVec.lt_def.mp less).le).symm
  · next notLess => exact (Nat.max_eq_left (Nat.le_of_not_lt (BitVec.lt_def.not.mp notLess))).symm

/-- The size of the mapping of the submission queue is not truncated. -/
theorem RingLayout.sq_covered (layout : RingLayout params sqShape cqShape) :
    params.sqOff.array.toNat + sqShape.size * 4 ≤ params.ringSizes.1 := by
  have entries : params.sqEntries.toNat = sqShape.size := by
    rw [layout.sqEntries, sqShape.nSlot_toNat]
  have limit := layout.sqLimit
  have array := layout.array
  unfold IoUringParams.ringSizes
  simp only [entries]
  split
  · rw [umax_toNat, BitVec.toNat_ofNat]
    exact le_max_of_le_left (Nat.mod_eq_of_lt (by omega)).ge
  · exact le_rfl

/-- The mapping that the completion queue is in covers it. -/
theorem RingLayout.cq_covered (layout : RingLayout params sqShape cqShape)
    (mapped : Mapped params sq cq sqe) :
    params.cqOff.cqes.toNat + cqShape.size * 16 ≤ (cqBase sq cq).size := by
  have entries : params.cqEntries.toNat = cqShape.size := by
    rw [layout.cqEntries, cqShape.nSlot_toNat]
  have limit := layout.cqLimit
  have cqes := layout.cqes
  have sqSize := mapped.sq.2
  have own := mapped.cq
  unfold IoUringParams.ringSizes at sqSize own
  simp only [entries] at sqSize own
  split at own
  · next single =>
      rw [own]
      rw [if_pos single] at sqSize
      show _ ≤ sq.size
      rw [sqSize, umax_toNat, BitVec.toNat_ofNat, BitVec.toNat_ofNat]
      exact le_max_of_le_right (Nat.mod_eq_of_lt (by omega)).ge
  · rw [cqBase, if_pos own.1, own.2]

theorem RingLayout.sqe_covered (layout : RingLayout params sqShape cqShape)
    (mapped : Mapped params sq cq sqe) : sqShape.size * 64 = sqe.size := by
  rw [mapped.sqe.2, IoUringParams.sqeSize, layout.sqEntries, sqShape.nSlot_toNat]

end Sizes

/-! ### The accesses -/

section Accesses

variable {kernel : Kernel} {params : IoUringParams} {world : World} {sqShape cqShape : RingShape}
  {sq cq sqe : MemoryMappedRegion} {ringfd eventfd : FileDescriptor}

theorem mapped_sq (mapped : Mapped params sq cq sqe)
    (values : world.objects.value = members sq cq sqe ringfd eventfd) {offset width : Nat}
    (inside : offset + width ≤ sq.size) : MappedBytes world (sq.data + offset, width) := by
  refine ⟨.sqRegion, sq, by rw [values]; rfl, mapped.sq.1, Nat.le_add_right _ _, ?_⟩
  rw [Nat.add_assoc]
  exact Nat.add_le_add_left inside sq.data

theorem mapped_sqe (mapped : Mapped params sq cq sqe)
    (values : world.objects.value = members sq cq sqe ringfd eventfd) {offset width : Nat}
    (inside : offset + width ≤ sqe.size) : MappedBytes world (sqe.data + offset, width) := by
  refine ⟨.sqeRegion, sqe, by rw [values]; rfl, mapped.sqe.1, Nat.le_add_right _ _, ?_⟩
  rw [Nat.add_assoc]
  exact Nat.add_le_add_left inside sqe.data

/-- The completion queue is in the mapping of `cq_region_`, or in that of `sq_region_`. -/
theorem mapped_cq (mapped : Mapped params sq cq sqe)
    (values : world.objects.value = members sq cq sqe ringfd eventfd) {offset width : Nat}
    (inside : offset + width ≤ (cqBase sq cq).size) :
    MappedBytes world ((cqBase sq cq).data + offset, width) := by
  by_cases own : cq.data ≠ 0
  · have base : cqBase sq cq = cq := if_pos own
    rw [base] at inside ⊢
    refine ⟨.cqRegion, cq, by rw [values]; rfl, own, Nat.le_add_right _ _, ?_⟩
    rw [Nat.add_assoc]
    exact Nat.add_le_add_left inside cq.data
  · have base : cqBase sq cq = sq := if_neg own
    rw [base] at inside ⊢
    exact mapped_sq mapped values inside

theorem entry_inside (shape : RingShape) (value : BitVec 32) (start width : Nat) :
    start + slot shape.mask value * width + width ≤ start + shape.size * width := by
  have below := slot_lt shape value
  calc
    start + slot shape.mask value * width + width
      = start + (slot shape.mask value + 1) * width := by ring
    _ ≤ start + shape.size * width := by gcongr; exact below

/-- Once a scheduler is constructed, every access to its rings lies in a mapping that it holds,
for all values the counters may have. -/
theorem accesses_mapped (sound : kernel.Sound) (entries flags : BitVec 32)
    (constructed : construct kernel entries flags = .ok params world)
    (layout : RingLayout params sqShape cqShape) :
    ∃ sq cq sqe, world.objects.value .sqRegion = some (.region sq) ∧
      world.objects.value .cqRegion = some (.region cq) ∧
      world.objects.value .sqeRegion = some (.region sqe) ∧
      ∀ access : Access,
        MappedBytes world (access.bytes params sq cq sqe sqShape.mask cqShape.mask) := by
  have keeps := construct_built kernel sound constructed
  obtain ⟨sq, cq, sqe, ringfd, eventfd, _, _, mapped, standing⟩ := keeps
  have values := standing.values
  refine ⟨sq, cq, sqe, by rw [values]; rfl, by rw [values]; rfl, by rw [values]; rfl, ?_⟩
  have sqCovered := layout.sq_covered
  rw [← mapped.sq.2] at sqCovered
  have cqCovered := layout.cq_covered mapped
  have sqInside {offset : Nat} (before : offset + 4 ≤ params.sqOff.array.toNat) :
      offset + 4 ≤ sq.size := before.trans ((Nat.le_add_right _ _).trans sqCovered)
  have cqInside {offset : Nat} (before : offset + 4 ≤ params.cqOff.cqes.toNat) :
      offset + 4 ≤ (cqBase sq cq).size := before.trans ((Nat.le_add_right _ _).trans cqCovered)
  intro access
  cases access with
  | sqHead => exact mapped_sq mapped values (sqInside layout.sqHead)
  | sqTail => exact mapped_sq mapped values (sqInside layout.sqTail)
  | sqRingMask => exact mapped_sq mapped values (sqInside layout.sqRingMask)
  | array tail =>
      rw [Access.bytes, Nat.add_assoc]
      exact mapped_sq mapped values ((entry_inside sqShape tail _ 4).trans sqCovered)
  | sqe tail =>
      apply mapped_sqe mapped values
      have inside := entry_inside sqShape tail 0 64
      rw [Nat.zero_add, Nat.zero_add, layout.sqe_covered mapped] at inside
      exact inside
  | cqHead => exact mapped_cq mapped values (cqInside layout.cqHead)
  | cqTail => exact mapped_cq mapped values (cqInside layout.cqTail)
  | cqRingMask => exact mapped_cq mapped values (cqInside layout.cqRingMask)
  | cqe head =>
      rw [Access.bytes, Nat.add_assoc]
      exact mapped_cq mapped values ((entry_inside cqShape head _ 16).trans cqCovered)

end Accesses

/-- A ring of four slots. -/
def four : RingShape where
  bits := 2
  nSlot := 4
  mask := 3
  bits_lt := by decide
  nSlot_eq := rfl
  mask_eq := rfl

/-- The answer of `single` to a request for two entries. -/
def singleParams : IoUringParams :=
  { initParams 0 with
    sqEntries := 2
    cqEntries := 4
    sqOff := { head := 0, tail := 4, ringMask := 8, array := 128 }
    cqOff := { head := 16, tail := 20, ringMask := 24, cqes := 64 } }

theorem accesses_mapped_single :
    ∃ world, construct single 2 0 = .ok singleParams world ∧
      ∃ sq cq sqe, world.objects.value .sqRegion = some (.region sq) ∧
        world.objects.value .cqRegion = some (.region cq) ∧
        world.objects.value .sqeRegion = some (.region sqe) ∧
        ∀ access : Access,
          MappedBytes world
            (access.bytes singleParams sq cq sqe RingShape.pair.mask four.mask) := by
  have layout : RingLayout singleParams RingShape.pair four := by
    constructor <;> decide
  exact ⟨_, rfl, accesses_mapped single_sound 2 0 rfl layout⟩

end NgrCore.SchedulerBase
