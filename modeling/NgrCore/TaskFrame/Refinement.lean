import NgrCore.Allocator.Discipline
import NgrCore.TaskFrame.Ownership

/-!
Owns the step from coroutine frames down to `__allocator`: the pointer for
`operator delete` lies in the bytes of its frame, and what orderly runs do to one
allocator is a run of pushes and pops of the most recent frame.
-/

namespace NgrCore.TaskFrame

open Library

/-- The pointer is stored behind the `n` bytes of the frame and inside what
`_M_push_stack_frame` was asked for. -/
theorem allocAddress_inside {fr n : Nat} (aligned : Allocator.alignment ∣ fr)
    (fits : fr + n + pointerSize ≤ 2 ^ 64) :
    fr + n ≤ allocAddress fr n ∧
      allocAddress fr n + pointerSize ≤ fr + allocateSize n := by
  have sum : fr + n + 2 ^ 3 ≤ 2 ^ 64 := fits
  have size : n + 2 ^ 3 ≤ 2 ^ 64 := by omega
  have atPointer := RoundUp.toNat_eq (by decide) sum
  have rounded := RoundUp.toNat_eq (by decide) size
  unfold allocAddress allocateSize
  unfold pointerSize
  unfold Allocator.alignment at aligned
  change BitVec.toNat (roundUp (BitVec.ofNat 64 (fr + n)) (BitVec.ofNat 64 8)) = _ at atPointer
  change BitVec.toNat (roundUp (BitVec.ofNat 64 n) (BitVec.ofNat 64 8)) = _ at rounded
  rw [atPointer, rounded]
  omega

section Simulation

variable {heap : Allocator.OperatorNew} {s : State} {a : Nat} {machine : Allocator.Machine}

/-- A machine whose live frames have the sizes of those on an allocator. -/
structure Simulates (heap : Allocator.OperatorNew) (s : State) (a : Nat)
    (machine : Allocator.Machine) : Prop where
  reachable : (Allocator.system heap).Reachable machine
  frames : List.Forall₂ (fun f live => ∃ frame, s.frames f = some frame ∧
    allocateSize frame.n = live.sz) (s.live a) machine.live

theorem simulates_createAllocator (inv : Inv s) (memory : Nat → Allocator.Cell) :
    Simulates heap s.createAllocator s.nextAlloc { allocator := { memory } } where
  reachable := .init ⟨memory, rfl⟩
  frames := by
    have none : s.createAllocator.live s.nextAlloc = [] :=
      inv.dead _ (inv.unborn s.nextAlloc le_rfl)
    rw [none]
    exact .nil

theorem Simulates.push (simulates : Simulates heap s a machine) (inv : Inv s) {n : Nat}
    {alloc : Option Nat} {address : Nat} {after : Allocator.State}
    (ran : Allocator.pushStackFrame heap machine.allocator (allocateSize n) =
      .ok (address, after)) :
    Simulates heap (s.push n alloc a) a
      { allocator := after
        live := ⟨address, allocateSize n, Allocator.held machine.allocator after⟩ ::
          machine.live } where
  reachable := simulates.reachable.step (.push ran)
  frames := by
    have live : (s.push n alloc a).live a = s.nextFrame :: s.live a :=
      Function.update_self _ _ _
    rw [live]
    refine .cons ⟨_, Function.update_self _ _ _, rfl⟩ (simulates.frames.imp ?_)
    intro f live ⟨frame, found, size⟩
    have old : f ≠ s.nextFrame := by
      intro same
      rw [same, inv.fresh _ le_rfl] at found
      exact absurd found (by simp)
    exact ⟨frame, (Function.update_of_ne old _ _).trans found, size⟩

/-- A frame freed in order is the one on top of the machine, and the pop succeeds. -/
theorem Simulates.pop (inv : Inv s) {f : Nat} {frame : Frame}
    (found : s.frames f = some frame) (inOrder : FreesInOrder s f)
    (simulates : Simulates heap s frame.owner machine) :
    ∃ top rest after, machine.live = top :: rest ∧ top.sz = allocateSize frame.n ∧
      Allocator.popStackFrame machine.allocator top.address = .ok after ∧
      Simulates heap (s.pop frame.owner f frame) frame.owner
        { allocator := after, live := rest } := by
  obtain ⟨last, _⟩ := inOrder frame found
  have whole := inv.live_eq found last
  have unique := inv.nodup frame.owner
  have frames := simulates.frames
  rw [whole] at unique frames
  have above := (List.nodup_cons.mp unique).1
  obtain ⟨top, rest, ⟨same, foundToo, size⟩, others, live⟩ :=
    List.forall₂_cons_left_iff.mp frames
  obtain rfl : frame = same := Option.some.inj (found.symm.trans foundToo)
  obtain ⟨after, popped, _⟩ := (Allocator.inv_of_reachable simulates.reachable).pop live
  refine
  ⟨top, rest, after, live, size.symm, popped, simulates.reachable.step (.pop live popped), ?_⟩
  have below : (s.pop frame.owner f frame).live frame.owner = frame.saved := by
    refine (Function.update_self _ _ _).trans ?_
    rw [whole, List.erase_cons_head]
  rw [below]
  have apart : ∀ g ∈ frame.saved, g ≠ f := fun g member same => above (same ▸ member)
  refine (List.forall₂_and_left _ _ |>.mpr ⟨apart, others⟩).imp ?_
  intro g live ⟨other, lower, present, size⟩
  exact ⟨lower, (Function.update_of_ne other _ _).trans present, size⟩

end Simulation

end NgrCore.TaskFrame
