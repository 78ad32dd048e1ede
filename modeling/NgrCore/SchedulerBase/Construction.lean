import NgrCore.SchedulerBase

/-!
Proves that the constructor of `__scheduler_base` loses nothing: for every kernel and whichever
system call fails, each descriptor and mapping that was handed out is released exactly once
before the error leaves the constructor; when no call fails, the members hold them all, one
each, and the destructor releases each once.
-/

namespace NgrCore.SchedulerBase

open NgrCore.Library NgrCore.Library.HandleClass

variable (kernel : Kernel)

/-! ### What the parts of the constructor leave -/

/-- The members have these values, and all handles that the kernel has handed out are open:
those pending have no object yet. -/
structure Standing (world : World) (values : Member → Option Object) (pending : List Handle) :
    Prop where
  reachable : handleClass.system.Reachable world.objects
  values : world.objects.value = values
  kept : world.objects.released = []
  obtained : world.obtained = pending ++ world.objects.opened
  fresh : ∀ handle ∈ pending, handle ∉ world.objects.opened

/-- The members when they have all been constructed. -/
def members (sq cq sqe : MemoryMappedRegion) (ringfd eventfd : FileDescriptor) :
    Member → Option Object
  | .sqRegion => some (.region sq)
  | .cqRegion => some (.region cq)
  | .sqeRegion => some (.region sqe)
  | .ringfd => some (.fileDescriptor ringfd)
  | .eventfd => some (.fileDescriptor eventfd)
  | .temporary => none

/-- The regions of a scheduler: the completion queue has its own, or is in the same mapping as
the submission queue. -/
structure Mapped (params : IoUringParams) (sq cq sqe : MemoryMappedRegion) : Prop where
  sq : sq.data ≠ 0 ∧ sq.size = params.ringSizes.1
  sqe : sqe.data ≠ 0 ∧ sqe.size = params.sqeSize
  cq : if params.singleMmap then cq = {} else cq.data ≠ 0 ∧ cq.size = params.ringSizes.2

theorem members_sqRegion (sq cq sqe region : MemoryMappedRegion) (ringfd eventfd : FileDescriptor) :
    Function.update (members sq cq sqe ringfd eventfd) .sqRegion (some (.region region)) =
      members region cq sqe ringfd eventfd := by
  funext name
  cases name <;> rfl

theorem members_cqRegion (sq cq sqe region : MemoryMappedRegion) (ringfd eventfd : FileDescriptor) :
    Function.update (members sq cq sqe ringfd eventfd) .cqRegion (some (.region region)) =
      members sq region sqe ringfd eventfd := by
  funext name
  cases name <;> rfl

theorem members_sqeRegion (sq cq sqe region : MemoryMappedRegion)
    (ringfd eventfd : FileDescriptor) :
    Function.update (members sq cq sqe ringfd eventfd) .sqeRegion (some (.region region)) =
      members sq cq region ringfd eventfd := by
  funext name
  cases name <;> rfl

/-- A scheduler that is complete. -/
def Built (params : IoUringParams) (world : World) : Prop :=
  ∃ sq cq sqe ringfd eventfd, ringfd.fd ≠ -1 ∧ eventfd.fd ≠ -1 ∧ Mapped params sq cq sqe ∧
    Standing world (members sq cq sqe ringfd eventfd) []

/-- Nothing is lost when an error is thrown here. -/
def Unwindable (world : World) : Prop :=
  ∃ values, Standing world values [] ∧ values .temporary = none

/-- A part of the constructor that returns as stated, or throws where nothing is lost. -/
def Ends {α : Type} (result : EStateM.Result Int World α) (returned : α → World → Prop) : Prop :=
  match result with
  | .ok value world => returned value world
  | .error _ world => Unwindable world

section Parts

variable {kernel} {α β : Type} {world : World} {values : Member → Option Object}
  {pending : List Handle} {returned : α → World → Prop}

theorem Ends.bind {part : Build α} {rest : α → Build β} {left : β → World → Prop}
    (first : Ends (part world) returned)
    (second : ∀ value after, returned value after → Ends (rest value after) left) :
    Ends ((part >>= rest) world) left := by
  show Ends (EStateM.bind part rest world) left
  unfold EStateM.bind
  cases ended : part world with
  | ok value after =>
      rw [ended] at first
      exact second value after first
  | error code after =>
      rw [ended] at first
      exact first

theorem Ends.mono {result : EStateM.Result Int World α} {weaker : α → World → Prop}
    (ends : Ends result returned)
    (weaken : ∀ value after, returned value after → weaker value after) :
    Ends result weaker := by
  cases result with
  | ok value after => exact weaken value after ends
  | error code after => exact ends

theorem get_ends :
    Ends ((get : Build World) world) fun value after => value = world ∧ after = world :=
  ⟨rfl, rfl⟩

theorem throwErrorCodeIf_ends {cond : Bool} {code : Int}
    (unwindable : cond = true → Unwindable world) :
    Ends (throwErrorCodeIf cond code world) fun _ after => cond = false ∧ after = world := by
  cases cond with
  | false => exact ⟨rfl, rfl⟩
  | true => exact unwindable rfl

/-- An object is constructed with the handle that is pending, if there is one. -/
theorem construct_ends {name : Member} {object : Object} (standing : Standing world values pending)
    (dead : values name = none) (holds : object.handle.toList = pending) :
    Ends (perform (.construct name object) world) fun _ after =>
      Standing after (Function.update values name (some object)) [] where
  reachable := by
    have admissible : handleClass.Admissible world.objects (.construct name object) := by
      refine ⟨by rw [standing.values, dead], fun handle here => standing.fresh handle ?_⟩
      rw [← holds]
      exact Option.mem_toList.mpr here
    exact standing.reachable.step ⟨admissible, rfl⟩
  values := by
    rw [← standing.values]
    rfl
  kept := standing.kept
  obtained := by
    have obtained := standing.obtained
    rw [← holds] at obtained
    exact obtained
  fresh _ member := absurd member List.not_mem_nil

theorem request_ends {call : List Handle → Except Int α} {handles : α → List Handle}
    {failed : α} (valid : α → Prop) (standing : Standing world values [])
    (sound : ∀ value, call world.objects.opened = .ok value →
      valid value ∧ ∀ handle ∈ handles value, handle ∉ world.objects.opened) :
    Ends (request call handles failed world) fun value after =>
      (value = failed ∧ Standing after values []) ∨
        (valid value ∧ Standing after values (handles value)) := by
  have fresh : ∀ handle ∈ ([] : List Handle), handle ∉ world.objects.opened :=
    fun _ member => absurd member List.not_mem_nil
  unfold request
  cases answer : call world.objects.opened with
  | error errno =>
      apply Or.inl
      exact ⟨rfl, standing.reachable, standing.values, standing.kept, standing.obtained, fresh⟩
  | ok value =>
      obtain ⟨isValid, new⟩ := sound value answer
      refine .inr ⟨isValid, standing.reachable, standing.values, standing.kept, ?_, new⟩
      exact congrArg (handles value ++ ·) standing.obtained

theorem moveAssign_ends {name other : Member} {old object : Object}
    (standing : Standing world values []) (differ : name ≠ other)
    (before : values name = some old) (empty : old.handle = none)
    (here : values other = some object) :
    Ends (perform (.moveAssign name other) world) fun _ after =>
      Standing after
        (Function.update (Function.update values other (some object.cleared)) name (some object))
        [] := by
  have same := standing.values
  have kept : handleClass.release world.objects old = world.objects := by
    rw [HandleClass.release, show handleClass.handle old = none from empty]
  have effect : handleClass.execute world.objects (.moveAssign name other) =
      handleClass.exchange world.objects name other object := by
    simp only [HandleClass.execute, same, before, here, if_neg differ, kept]
  have admissible : handleClass.Admissible world.objects (.moveAssign name other) := by
    rw [HandleClass.Admissible, same, before, here]
    exact ⟨Option.some_ne_none old, Option.some_ne_none object⟩
  have reachable := standing.reachable.step ⟨admissible, rfl⟩
  rw [effect] at reachable
  show Standing { world with objects := handleClass.execute world.objects _ } _ []
  rw [effect]
  exact ⟨reachable, by rw [← same]; rfl, standing.kept, standing.obtained,
    fun _ member => absurd member List.not_mem_nil⟩

theorem destroy_ends {name : Member} {old : Object} (standing : Standing world values [])
    (before : values name = some old) (empty : old.handle = none) :
    Ends (perform (.destroy name) world) fun _ after =>
      Standing after (Function.update values name none) [] := by
  have same := standing.values
  have kept : handleClass.release world.objects old = world.objects := by
    rw [HandleClass.release, show handleClass.handle old = none from empty]
  have effect : handleClass.execute world.objects (.destroy name) =
      { world.objects with value := Function.update world.objects.value name none } := by
    simp only [HandleClass.execute, same, before, kept]
  have admissible : handleClass.Admissible world.objects (.destroy name) := by
    rw [HandleClass.Admissible, same, before]
    exact Option.some_ne_none old
  have reachable := standing.reachable.step ⟨admissible, rfl⟩
  rw [effect] at reachable
  show Standing { world with objects := handleClass.execute world.objects _ } _ []
  rw [effect]
  exact ⟨reachable, by rw [← same], standing.kept, standing.obtained,
    fun _ member => absurd member List.not_mem_nil⟩

theorem assignRegion_ends {member : Member} {region : MemoryMappedRegion}
    (standing : Standing world values pending) (before : values member = some (.region {}))
    (free : values .temporary = none) (holds : (Object.region region).handle.toList = pending) :
    Ends (assignRegion member region world) fun _ after =>
      Standing after (Function.update values member (some (.region region))) [] := by
  have differ : member ≠ .temporary := by
    intro same
    rw [same, free] at before
    cases before
  apply (construct_ends standing free holds).bind
  intro _ made constructed
  apply (moveAssign_ends constructed differ ((Function.update_of_ne differ _ _).trans before) rfl
    (Function.update_self _ _ _)).bind
  intro _ moved assigned
  have emptied : (Function.update (Function.update (Function.update values Member.temporary
      (some (.region region))) .temporary (some (Object.region region).cleared)) member
      (some (.region region))) .temporary = some (.region {}) := by
    rw [Function.update_of_ne differ.symm, Function.update_self]
    rfl
  apply (destroy_ends assigned emptied rfl).mono
  intro _ after standing
  have cleaned : Function.update (Function.update (Function.update (Function.update values
      Member.temporary (some (.region region))) .temporary (some (Object.region region).cleared))
      member (some (.region region))) .temporary none =
      Function.update values member (some (.region region)) := by
    rw [Function.update_idem, Function.update_comm (β := fun _ => Option Object) differ,
      Function.update_idem, ← free, Function.update_eq_self]
  rw [← cleaned]
  exact standing

theorem ioUringSetup_ends {entries : BitVec 32} {params : IoUringParams} (sound : kernel.Sound)
    (standing : Standing world values []) (free : values .temporary = none) :
    Ends (ioUringSetup kernel entries params world) fun answer after =>
      answer.1.fd ≠ -1 ∧ Standing after values [.fd answer.1.fd] := by
  apply (request_ends (fun answer => 0 ≤ answer.1) standing fun answer given => by
    obtain ⟨positive, new⟩ := sound.ioUringSetup _ entries params answer.1 answer.2 given
    exact ⟨positive, by simpa using new⟩).bind
  rintro ⟨rc, answered⟩ after answers
  rcases answers with ⟨failed, unchanged⟩ | ⟨positive, obtained⟩
  · apply (throwErrorCodeIf_ends fun _ => ⟨values, unchanged, free⟩).bind
    rintro _ _ ⟨passed, _⟩
    cases failed
    cases passed
  · have passes : ¬ rc < 0 := Int.not_lt.mpr positive
    apply (throwErrorCodeIf_ends fun throws => absurd (of_decide_eq_true throws) passes).bind
    rintro _ _ ⟨_, rfl⟩
    refine ⟨?_, obtained⟩
    rintro rfl
    exact passes (by decide)

theorem mapRegion_ends {fd : Int} {offset size : Nat} (sound : kernel.Sound)
    (standing : Standing world values []) (free : values .temporary = none) :
    Ends (mapRegion kernel fd offset size world) fun region after =>
      region.data ≠ 0 ∧ region.size = size ∧
        Standing after values [.mapping region.data region.size] := by
  apply (request_ends (fun data => data ≠ 0 ∧ data ≠ MAP_FAILED) standing fun data given => by
    obtain ⟨nonnull, mapped, new⟩ := sound.mmap _ fd offset size data given
    exact ⟨⟨nonnull, mapped⟩, by simpa using new⟩).bind
  intro ptr after answers
  apply get_ends.bind
  rintro _ _ ⟨rfl, rfl⟩
  rcases answers with ⟨rfl, unchanged⟩ | ⟨⟨nonnull, mapped⟩, obtained⟩
  · apply (throwErrorCodeIf_ends fun _ => ⟨values, unchanged, free⟩).bind
    rintro _ _ ⟨passed, _⟩
    exact absurd rfl (of_decide_eq_false passed)
  · apply (throwErrorCodeIf_ends fun throws => absurd (of_decide_eq_true throws) mapped).bind
    rintro _ _ ⟨_, rfl⟩
    have kept : (MemoryMappedRegion.make ptr size).data = ptr := if_neg mapped
    refine ⟨?_, rfl, ?_⟩
    · rw [kept]
      exact nonnull
    · rw [kept]
      exact obtained

theorem ioUringRegisterEventfdAsync_ends {ringfd eventfd : Int}
    (standing : Standing world values []) (free : values .temporary = none) :
    Ends (ioUringRegisterEventfdAsync kernel ringfd eventfd world) fun _ after =>
      Standing after values [] := by
  apply (request_ends (fun _ => True) standing fun _ _ => ⟨trivial, by simp⟩).bind
  intro rc after answers
  have standing : Standing after values [] := answers.elim And.right And.right
  apply get_ends.bind
  rintro _ _ ⟨rfl, rfl⟩
  apply (throwErrorCodeIf_ends fun _ => ⟨values, standing, free⟩).mono
  rintro _ _ ⟨_, rfl⟩
  exact standing

/-- A call of `eventfd` that fails leaves a descriptor without a handle. -/
theorem eventfd_ends (sound : kernel.Sound) (standing : Standing world values []) :
    Ends (request kernel.eventfd ([.fd ·]) (-1) world) fun fd after =>
      Standing after values (Object.fileDescriptor { fd }).handle.toList := by
  apply (request_ends (fun fd => 0 ≤ fd) standing fun fd given => by
    obtain ⟨positive, new⟩ := sound.eventfd _ fd given
    exact ⟨positive, by simpa using new⟩).mono
  rintro fd after (⟨rfl, unchanged⟩ | ⟨positive, obtained⟩)
  · exact unchanged
  · have good : fd ≠ -1 := by
      rintro rfl
      exact absurd positive (by decide)
    rw [Object.handle, if_neg good]
    exact obtained

theorem memberInitializers_ends {entries flags : BitVec 32} (sound : kernel.Sound) :
    Ends (memberInitializers kernel entries flags {}) fun built after =>
      built.1.fd ≠ -1 ∧ Standing after (members {} {} {} built.1 built.2.1) [] := by
  have start : Standing {} (fun _ => none) [] :=
    ⟨.init rfl, rfl, rfl, rfl, fun _ member => absurd member List.not_mem_nil⟩
  apply (construct_ends start rfl rfl).bind
  intro _ _ start
  apply (construct_ends start rfl rfl).bind
  intro _ _ start
  apply (construct_ends start rfl rfl).bind
  intro _ _ start
  apply (ioUringSetup_ends sound start rfl).bind
  rintro ⟨ringfd, params⟩ _ ⟨valid, standing⟩
  have holds : (Object.fileDescriptor ringfd).handle.toList = [.fd ringfd.fd] := by
    rw [Object.handle, if_neg valid]
    rfl
  apply (construct_ends standing rfl holds).bind
  intro _ _ standing
  apply (eventfd_ends sound standing).bind
  intro fd _ standing
  apply (construct_ends standing rfl rfl).bind
  intro _ after standing
  have all : Function.update (Function.update (Function.update (Function.update (Function.update
      (fun _ => none) Member.sqRegion (some (.region {}))) .cqRegion (some (.region {})))
      .sqeRegion (some (.region {}))) .ringfd (some (.fileDescriptor ringfd))) .eventfd
      (some (Object.fileDescriptor { fd })) = members {} {} {} ringfd { fd } := by
    funext name
    cases name <;> rfl
  rw [all] at standing
  exact ⟨valid, standing⟩

/-- `__map_region` and the assignment of what it returns. -/
theorem mapMember_ends {member : Member} {fd : Int} {offset size : Nat} (sound : kernel.Sound)
    (standing : Standing world values []) (before : values member = some (.region {}))
    (free : values .temporary = none) {rest : PUnit → Build α}
    (second : ∀ region after, region.data ≠ 0 ∧ region.size = size →
      Standing after (Function.update values member (some (.region region))) [] →
      Ends (rest () after) returned) :
    Ends ((do assignRegion member (← mapRegion kernel fd offset size) >>= rest) world)
      returned := by
  apply (mapRegion_ends sound standing free).bind
  rintro region _ ⟨nonnull, hasSize, obtained⟩
  have holds : (Object.region region).handle.toList = [.mapping region.data region.size] := by
    rw [Object.handle, if_neg nonnull]
    rfl
  apply (assignRegion_ends obtained before free holds).bind
  intro _ after assigned
  exact second region after ⟨nonnull, hasSize⟩ assigned

theorem constructorBody_ends {ringfd eventfd : FileDescriptor} {params : IoUringParams}
    (sound : kernel.Sound) (standing : Standing world (members {} {} {} ringfd eventfd) []) :
    Ends (constructorBody kernel ringfd eventfd params world) fun _ after =>
      eventfd.fd ≠ -1 ∧ ∃ sq cq sqe, Mapped params sq cq sqe ∧
        Standing after (members sq cq sqe ringfd eventfd) [] := by
  have throws : Unwindable world := ⟨_, standing, rfl⟩
  apply get_ends.bind
  rintro _ _ ⟨rfl, rfl⟩
  apply (throwErrorCodeIf_ends fun _ => throws).bind
  rintro _ _ ⟨_, rfl⟩
  apply get_ends.bind
  rintro _ _ ⟨rfl, rfl⟩
  apply (throwErrorCodeIf_ends fun _ => throws).bind
  rintro _ _ ⟨valid, rfl⟩
  apply mapMember_ends sound standing rfl rfl
  intro sq _ sqMapped standing
  rw [members_sqRegion] at standing
  apply mapMember_ends sound standing rfl rfl
  intro sqe _ sqeMapped standing
  rw [members_sqeRegion] at standing
  have finishes (cq : MemoryMappedRegion) (world : World)
      (cqMapped : if params.singleMmap then cq = {} else cq.data ≠ 0 ∧ cq.size = params.ringSizes.2)
      (standing : Standing world (members sq cq sqe ringfd eventfd) []) :
      Ends (ioUringRegisterEventfdAsync kernel ringfd.fd eventfd.fd world) fun _ after =>
        eventfd.fd ≠ -1 ∧ ∃ sq cq sqe, Mapped params sq cq sqe ∧
          Standing after (members sq cq sqe ringfd eventfd) [] := by
    apply (ioUringRegisterEventfdAsync_ends standing rfl).mono
    intro _ after standing
    exact ⟨of_decide_eq_false valid, sq, cq, sqe, ⟨sqMapped, sqeMapped, cqMapped⟩, standing⟩
  cases single : params.singleMmap with
  | true =>
      rw [single] at finishes
      exact finishes {} _ rfl standing
  | false =>
      rw [single] at finishes
      apply mapMember_ends sound standing rfl rfl
      intro cq after cqMapped standing
      rw [members_cqRegion] at standing
      exact finishes cq after cqMapped standing

end Parts

/-- From everywhere in the constructor, destroying the members releases every handle. -/
theorem Unwindable.destroyMembers {world : World} (unwindable : Unwindable world) :
    AllReleased world.destroyMembers.objects world.destroyMembers.obtained := by
  obtain ⟨values, standing, free⟩ := unwindable
  have all : ∀ name, world.objects.value name ≠ none → name ∈ destroyOrder := by
    intro name alive
    cases name with
    | temporary =>
        rw [standing.values, free] at alive
        exact absurd rfl alive
    | _ => simp [destroyOrder]
  have released := leave_releases standing.reachable all
  rw [standing.kept, List.append_nil] at released
  show AllReleased _ world.obtained
  rw [standing.obtained]
  exact released

theorem initializersAndBody_ends (sound : kernel.Sound) (entries flags : BitVec 32) :
    Ends (initializersAndBody kernel entries flags {}) Built := by
  apply (memberInitializers_ends sound).bind
  rintro ⟨ringfd, eventfd, params⟩ _ ⟨ringValid, standing⟩
  apply (constructorBody_ends sound standing).bind
  rintro _ after ⟨eventValid, sq, cq, sqe, mapped, standing⟩
  exact ⟨sq, cq, sqe, ringfd, eventfd, ringValid, eventValid, mapped, standing⟩

/-- A constructor that returns has built a scheduler. -/
theorem construct_built (sound : kernel.Sound) {entries flags : BitVec 32}
    {params : IoUringParams} {world : World}
    (constructed : construct kernel entries flags = .ok params world) : Built params world := by
  have ends := initializersAndBody_ends kernel sound entries flags
  unfold construct at constructed
  split at constructed
  · next returned =>
      rw [returned] at ends
      cases constructed
      exact ends
  · cases constructed

/-- Nothing that the kernel hands out to the constructor is lost or released twice: when one
of the system calls fails, all has been released when the error leaves the constructor;
otherwise the scheduler is complete, each handle is held by one member, and the destructor
releases all of them. -/
theorem construct_keeps_handles (sound : kernel.Sound) (entries flags : BitVec 32) :
    match construct kernel entries flags with
    | .error _ world => AllReleased world.objects world.obtained
    | .ok params world =>
        Built params world ∧
        (∀ handle ∈ world.obtained, ∃! name, handle ∈ handleClass.held world.objects name) ∧
        AllReleased world.destroyMembers.objects world.obtained := by
  have ends := initializersAndBody_ends kernel sound entries flags
  unfold construct
  cases ended : initializersAndBody kernel entries flags {} with
  | ok params world =>
      rw [ended] at ends
      refine ⟨ends, ?_⟩
      obtain ⟨sq, cq, sqe, ringfd, eventfd, _, _, _, standing⟩ := ends
      refine ⟨?_, Unwindable.destroyMembers ⟨_, standing, rfl⟩⟩
      intro handle obtained
      rw [standing.obtained] at obtained
      exact (unique_of_reachable standing.reachable).holder obtained
  | error code world =>
      rw [ended] at ends
      exact ends.destroyMembers

/-- A kernel that has one ring, one counter and three mappings to hand out. -/
def single : Kernel where
  ioUringSetup opened entries params :=
    if .fd 3 ∈ opened then .error 24
    else .ok (3, { params with
      sqEntries := entries
      cqEntries := 2 * entries
      sqOff := { head := 0, tail := 4, ringMask := 8, array := 128 }
      cqOff := { head := 16, tail := 20, ringMask := 24, cqes := 64 } })
  eventfd opened := if .fd 4 ∈ opened then .error 24 else .ok 4
  mmap opened _ offset size :=
    if .mapping (offset + 4096) size ∈ opened ∨ offset + 4096 = MAP_FAILED then .error 12
    else .ok (offset + 4096)
  ioUringRegister _ _ _ := .ok 0

theorem single_sound : single.Sound where
  ioUringSetup opened entries params fd answered given := by
    by_cases taken : Handle.fd 3 ∈ opened
    · simp [single, taken] at given
    · simp only [single, taken, if_false, Except.ok.injEq, Prod.mk.injEq] at given
      rw [← given.1]
      exact ⟨by decide, taken⟩
  eventfd opened fd given := by
    by_cases taken : Handle.fd 4 ∈ opened
    · simp [single, taken] at given
    · simp only [single, taken, if_false, Except.ok.injEq] at given
      rw [← given]
      exact ⟨by decide, taken⟩
  mmap opened fd offset size data given := by
    simp only [single] at given
    split at given
    · cases given
    · next free =>
        obtain ⟨new, valid⟩ := not_or.mp free
        simp only [Except.ok.injEq] at given
        rw [← given]
        exact ⟨Nat.succ_ne_zero _, valid, new⟩

theorem construct_keeps_handles_single :
    ∃ params world, construct single 2 0 = .ok params world ∧ Built params world ∧
      world.obtained.length = 4 ∧ AllReleased world.destroyMembers.objects world.obtained := by
  have keeps := construct_keeps_handles single single_sound 2 0
  exact ⟨_, _, rfl, keeps.1, rfl, keeps.2.2⟩

end NgrCore.SchedulerBase
