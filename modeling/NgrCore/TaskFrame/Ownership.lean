import NgrCore.TaskFrame

/-!
Owns the ownership of coroutine frames: when every frame is popped from the allocator it
was pushed on, and when not.
-/

namespace NgrCore.TaskFrame

open Library

/-- Every frame freed was popped from the live allocator it was pushed on, as its most
recent frame, and no allocator was destroyed with a live frame. -/
structure Owned (s : State) : Prop where
  freed : ∀ r ∈ s.freed, r.popped = some r.owner ∧ r.alive = true ∧ r.last = true
  destroyed : ∀ d ∈ s.destroyed, d.frames = []

/-- The frame is the most recent of its allocator, and unless it is the first of it,
`__k_tls_alloc` is that allocator. -/
def FreesInOrder (s : State) (f : Nat) : Prop :=
  ∀ frame, s.frames f = some frame →
    (s.live frame.owner).head? = some f ∧
      (frame.alloc = none → s.kTlsAlloc = some frame.owner)

/-- The condition on a step: a call finds no allocator or a live one, and frames are freed
in order. -/
def Orderly (s : State) : Event → Prop
  | .call _ => ∀ alloc, s.kTlsAlloc = some alloc → s.alive alloc = true
  | .finish => ∀ execution rest, s.running = execution :: rest →
      s.continuation execution.frame = none → FreesInOrder s execution.frame
  | .drop c => FreesInOrder s c
  | _ => True

/-- The invariant of the runs whose steps are all orderly: every allocator has its live
frames one above the other, the first of them knows it, and its place is above them all. -/
structure Inv (s : State) : Prop where
  owned : Owned s
  member : ∀ a f, f ∈ s.live a ↔ ∃ frame, s.frames f = some frame ∧ frame.owner = a
  nodup : ∀ a, (s.live a).Nodup
  fresh : ∀ f, s.nextFrame ≤ f → s.frames f = none
  unborn : ∀ a, s.nextAlloc ≤ a → s.alive a = false
  dead : ∀ a, s.alive a = false → s.live a = []
  first : ∀ f frame a, s.frames f = some frame → frame.alloc = some a →
    frame.owner = a ∧ frame.saved = []
  place : ∀ a, s.alive a = true → s.place a = s.live a
  saved : ∀ f frame, s.frames f = some frame →
    ∃ above, s.live frame.owner = above ++ f :: frame.saved

section Steps

variable {s : State}

theorem inv_init : Inv {} where
  owned := ⟨nofun, nofun⟩
  member a f := by simp
  nodup _ := List.nodup_nil
  fresh _ _ := rfl
  unborn _ _ := rfl
  dead _ _ := rfl
  first _ _ _ found := by simp at found
  place _ _ := rfl
  saved _ _ found := by simp at found

theorem Inv.congr (inv : Inv s) {next : State} (alive : next.alive = s.alive)
    (place : next.place = s.place) (frames : next.frames = s.frames)
    (nextAlloc : next.nextAlloc = s.nextAlloc) (nextFrame : next.nextFrame = s.nextFrame)
    (live : next.live = s.live) (freed : next.freed = s.freed)
    (destroyed : next.destroyed = s.destroyed) : Inv next where
  owned := ⟨freed ▸ inv.owned.freed, destroyed ▸ inv.owned.destroyed⟩
  member := by rw [live, frames]; exact inv.member
  nodup := live ▸ inv.nodup
  fresh := by rw [nextFrame, frames]; exact inv.fresh
  unborn := by rw [nextAlloc, alive]; exact inv.unborn
  dead := by rw [alive, live]; exact inv.dead
  first := frames ▸ inv.first
  place := by rw [alive, place, live]; exact inv.place
  saved := by rw [frames, live]; exact inv.saved

/-- A push on a live allocator; the pointer is stored in its first frame only. -/
theorem Inv.push (inv : Inv s) (n : Nat) {alloc : Option Nat} {owner : Nat}
    (alive : s.alive owner = true)
    (first : ∀ a, alloc = some a → owner = a ∧ s.live owner = []) :
    Inv (s.push n alloc owner) := by
  have absent : ∀ a, s.nextFrame ∉ s.live a := by
    intro a member
    obtain ⟨frame, found, _⟩ := (inv.member a s.nextFrame).mp member
    exact absurd (found.symm.trans (inv.fresh s.nextFrame le_rfl)) (by simp)
  have frames : ∀ f, (s.push n alloc owner).frames f =
      if f = s.nextFrame then some ⟨n, alloc, s.place owner, owner⟩ else s.frames f :=
    fun f => Function.update_apply _ _ _ _
  have live : ∀ a, (s.push n alloc owner).live a =
      if a = owner then s.nextFrame :: s.live owner else s.live a :=
    fun a => Function.update_apply _ _ _ _
  have place : ∀ a, (s.push n alloc owner).place a =
      if a = owner then s.nextFrame :: s.place owner else s.place a :=
    fun a => Function.update_apply _ _ _ _
  have fresh := inv.fresh s.nextFrame le_rfl
  constructor
  · exact ⟨inv.owned.freed, inv.owned.destroyed⟩
  · intro a f
    rw [live, frames]
    have member := inv.member a f
    by_cases new : f = s.nextFrame <;> by_cases same : a = owner <;> grind
  · intro a
    rw [live]
    split
    · exact List.nodup_cons.mpr ⟨absent owner, inv.nodup owner⟩
    · exact inv.nodup a
  · intro f beyond
    have beyond : s.nextFrame + 1 ≤ f := beyond
    rw [frames, if_neg (by omega)]
    exact inv.fresh f (by omega)
  · exact inv.unborn
  · intro a gone
    have gone : s.alive a = false := gone
    have other : a ≠ owner := by
      intro same
      rw [same, alive] at gone
      exact absurd gone (by simp)
    rw [live, if_neg other]
    exact inv.dead a gone
  · intro f frame a found recorded
    rw [frames] at found
    split at found
    · obtain rfl := Option.some.inj found
      obtain ⟨same, empty⟩ := first a recorded
      exact ⟨same, (inv.place owner alive).trans empty⟩
    · exact inv.first f frame a found recorded
  · intro a up
    rw [place, live]
    split
    · rw [inv.place owner alive]
    · exact inv.place a up
  · intro f frame found
    rw [frames] at found
    rw [live]
    split at found
    · rename_i new
      obtain rfl := Option.some.inj found
      exact ⟨[], by simp [new, inv.place owner alive]⟩
    · obtain ⟨above, split⟩ := inv.saved f frame found
      by_cases same : frame.owner = owner
      · rw [if_pos same]
        rw [same] at split
        exact ⟨s.nextFrame :: above, by rw [split, List.cons_append]⟩
      · rw [if_neg same]
        exact ⟨above, split⟩

theorem Inv.createAllocator (inv : Inv s) : Inv s.createAllocator := by
  have unborn := inv.unborn s.nextAlloc le_rfl
  have alive : ∀ a, s.createAllocator.alive a =
      if a = s.nextAlloc then true else s.alive a :=
    fun a => Function.update_apply _ _ _ _
  have place : ∀ a, s.createAllocator.place a =
      if a = s.nextAlloc then [] else s.place a :=
    fun a => Function.update_apply _ _ _ _
  refine ⟨⟨inv.owned.freed, inv.owned.destroyed⟩, inv.member, inv.nodup, inv.fresh, ?_, ?_,
    inv.first, ?_, inv.saved⟩
  · intro a beyond
    have beyond : s.nextAlloc + 1 ≤ a := beyond
    rw [alive, if_neg (by omega)]
    exact inv.unborn a (by omega)
  · intro a gone
    rw [alive] at gone
    split at gone
    · exact absurd gone (by simp)
    · exact inv.dead a gone
  · intro a up
    rw [alive] at up
    rw [place]
    split
    · rename_i same
      rw [same]
      exact (inv.dead s.nextAlloc unborn).symm
    · rename_i other
      rw [if_neg other] at up
      exact inv.place a up

theorem Inv.operatorNew (inv : Inv s) (n : Nat)
    (alive : ∀ alloc, s.kTlsAlloc = some alloc → s.alive alloc = true) :
    Inv (s.operatorNew n) := by
  unfold State.operatorNew
  cases tls : s.kTlsAlloc with
  | none =>
      refine inv.createAllocator.push n (Function.update_self _ _ _) fun a same => ?_
      exact ⟨Option.some.inj same, inv.dead _ (inv.unborn s.nextAlloc le_rfl)⟩
  | some pa => exact inv.push n (alive pa tls) nofun

/-- What a live frame that is the most recent of its allocator has above and below it. -/
theorem Inv.live_eq (inv : Inv s) {f : Nat} {frame : Frame} (found : s.frames f = some frame)
    (last : (s.live frame.owner).head? = some f) :
    s.live frame.owner = f :: frame.saved := by
  obtain ⟨above, split⟩ := inv.saved f frame found
  have unique := inv.nodup frame.owner
  cases above with
  | nil => exact split
  | cons first rest =>
      rw [split] at last unique
      obtain rfl : first = f := by simpa using last
      exact absurd unique (by simp)

theorem Inv.alive (inv : Inv s) {f : Nat} {frame : Frame} (found : s.frames f = some frame) :
    s.alive frame.owner = true := by
  by_contra gone
  have empty := inv.dead frame.owner (by simpa using gone)
  have member := (inv.member frame.owner f).mpr ⟨frame, found, rfl⟩
  rw [empty] at member
  exact absurd member (by simp)

theorem Inv.pop (inv : Inv s) {f : Nat} {frame : Frame} (found : s.frames f = some frame)
    (last : (s.live frame.owner).head? = some f) : Inv (s.pop frame.owner f frame) := by
  have whole := inv.live_eq found last
  have unique := inv.nodup frame.owner
  rw [whole] at unique
  obtain ⟨above, below⟩ := List.nodup_cons.mp unique
  have live : ∀ a, (s.pop frame.owner f frame).live a =
      if a = frame.owner then frame.saved else s.live a := by
    intro a
    refine (Function.update_apply _ _ _ _).trans ?_
    rw [whole, List.erase_cons_head]
  have frames : ∀ g, (s.pop frame.owner f frame).frames g =
      if g = f then none else s.frames g :=
    fun g => Function.update_apply _ _ _ _
  have place : ∀ a, (s.pop frame.owner f frame).place a =
      if a = frame.owner then frame.saved else s.place a :=
    fun a => Function.update_apply _ _ _ _
  constructor
  · refine ⟨fun r member => ?_, inv.owned.destroyed⟩
    rcases List.mem_append.mp member with old | new
    · exact inv.owned.freed r old
    · obtain rfl := List.mem_singleton.mp new
      exact ⟨rfl, inv.alive found, by simpa using last⟩
  · intro a g
    rw [live, frames]
    have member := inv.member a g
    by_cases same : a = frame.owner
    · subst same
      rw [whole] at member
      by_cases self : g = f <;> grind
    · by_cases self : g = f <;> grind
  · intro a
    rw [live]
    split
    · exact below
    · exact inv.nodup a
  · intro g beyond
    rw [frames]
    split
    · rfl
    · exact inv.fresh g beyond
  · exact inv.unborn
  · intro a gone
    have gone : s.alive a = false := gone
    have other : a ≠ frame.owner := by
      intro same
      rw [same, inv.alive found] at gone
      exact absurd gone (by simp)
    rw [live, if_neg other]
    exact inv.dead a gone
  · intro g other a present recorded
    rw [frames] at present
    split at present
    · exact absurd present (by simp)
    · exact inv.first g other a present recorded
  · intro a up
    rw [place, live]
    split
    · rfl
    · exact inv.place a up
  · intro g other present
    rw [frames] at present
    rw [live]
    split at present
    · exact absurd present (by simp)
    · rename_i different
      obtain ⟨front, split⟩ := inv.saved g other present
      by_cases same : other.owner = frame.owner
      · rw [if_pos same]
        rw [same, whole] at split
        cases front with
        | nil => exact absurd (List.cons.inj split).1.symm different
        | cons first rest => exact ⟨rest, (List.cons.inj split).2⟩
      · rw [if_neg same]
        exact ⟨front, split⟩

theorem Inv.destroyAllocator (inv : Inv s) {alloc : Nat} (empty : s.live alloc = []) :
    Inv (s.destroyAllocator alloc) := by
  have alive : ∀ a, (s.destroyAllocator alloc).alive a =
      if a = alloc then false else s.alive a :=
    fun a => Function.update_apply _ _ _ _
  refine ⟨⟨inv.owned.freed, fun d member => ?_⟩, inv.member, inv.nodup, inv.fresh,
    fun a beyond => ?_, fun a gone => ?_, inv.first, fun a up => ?_, inv.saved⟩
  · rcases List.mem_append.mp member with old | new
    · exact inv.owned.destroyed d old
    · obtain rfl := List.mem_singleton.mp new
      exact empty
  · rw [alive]
    split
    · rfl
    · exact inv.unborn a beyond
  · by_cases same : a = alloc
    · rw [same]
      exact empty
    · rw [alive, if_neg same] at gone
      exact inv.dead a gone
  · by_cases same : a = alloc
    · rw [alive, if_pos same] at up
      exact absurd up (by simp)
    · rw [alive, if_neg same] at up
      exact inv.place a up

theorem Inv.operatorDelete (inv : Inv s) {f : Nat} {frame : Frame}
    (found : s.frames f = some frame) (inOrder : FreesInOrder s f) :
    Inv (s.operatorDelete f frame) := by
  obtain ⟨last, swappedBack⟩ := inOrder frame found
  have popped := inv.pop found last
  unfold State.operatorDelete
  cases recorded : frame.alloc with
  | none => simp only [swappedBack recorded, popped]
  | some a =>
      obtain ⟨rfl, empty⟩ := inv.first f frame a found recorded
      have none : (s.pop frame.owner f frame).live frame.owner = [] := by
        refine (Function.update_self _ _ _).trans ?_
        rw [inv.live_eq found last, List.erase_cons_head, empty]
      exact popped.destroyAllocator none

theorem Inv.leave (inv : Inv s) (facade : Nat) (rest : List Execution) :
    Inv (s.leave facade rest) :=
  inv.congr rfl rfl rfl rfl rfl rfl rfl rfl

theorem Inv.step (inv : Inv s) {event : Event} {next : State} (orderly : Orderly s event)
    (step : Step s event next) : Inv next := by
  cases step with
  | call => exact inv.operatorNew _ orderly
  | drop _ found => exact inv.operatorDelete found orderly
  | finishRoot running root found =>
      exact (inv.operatorDelete found (orderly _ _ running root)).leave _ _
  | spawn | await | execute | suspend | finishChild =>
      exact inv.congr rfl rfl rfl rfl rfl rfl rfl rfl

theorem inv_of_orderly (reachable : (system.restrict Orderly).Reachable s) : Inv s := by
  induction reachable with
  | init initial =>
      obtain rfl := initial
      exact inv_init
  | step _ step inductionHypothesis => exact inductionHypothesis.step step.1 step.2

/-- What the record of a pop says. -/
theorem owned_pop {alloc f : Nat} {frame : Frame} (owned : Owned (s.pop alloc f frame)) :
    alloc = frame.owner ∧ (s.live alloc).head? = some f := by
  obtain ⟨popped, _, last⟩ :=
    owned.freed _ (List.mem_append_right _ (List.mem_singleton_self _))
  exact ⟨Option.some.inj popped, by simpa using last⟩

/-- A frame freed out of order is popped from another allocator, or not as the most recent
of its own. -/
theorem inOrder_of_owned {f : Nat} {frame : Frame} (found : s.frames f = some frame)
    (owned : Owned (s.operatorDelete f frame)) : FreesInOrder s f := by
  intro same foundToo
  obtain rfl : frame = same := Option.some.inj (found.symm.trans foundToo)
  unfold State.operatorDelete at owned
  cases recorded : frame.alloc with
  | some alloc =>
      simp only [recorded] at owned
      have whole : Owned (s.pop alloc f frame) :=
        ⟨owned.freed, fun d member => owned.destroyed d (List.mem_append_left _ member)⟩
      obtain ⟨rfl, last⟩ := owned_pop whole
      exact ⟨last, nofun⟩
  | none =>
      simp only [recorded] at owned
      cases tls : s.kTlsAlloc with
      | some alloc =>
          simp only [tls] at owned
          obtain ⟨rfl, last⟩ := owned_pop owned
          exact ⟨last, fun _ => rfl⟩
      | none =>
          simp only [tls] at owned
          obtain ⟨popped, _⟩ :=
            owned.freed _ (List.mem_append_right _ (List.mem_singleton_self _))
          exact absurd popped nofun

/-- In every orderly run frames and allocators are owned, and a frame freed next is freed
as it should be if and only if it is freed in order. -/
theorem owned_of_orderly (reachable : (system.restrict Orderly).Reachable s) :
    Owned s ∧ ∀ f frame, s.frames f = some frame →
      (Owned (s.operatorDelete f frame) ↔ FreesInOrder s f) := by
  have inv := inv_of_orderly reachable
  refine ⟨inv.owned, fun f frame found => ⟨inOrder_of_owned found, fun inOrder => ?_⟩⟩
  exact (inv.operatorDelete found inOrder).owned

end Steps

/-- Two connections: the second task is called while `__k_tls_alloc` still leads to the
allocator of the first, and the first one finishes first. -/
theorem finished_under_another : ¬∀ s, system.Reachable s → Owned s := by
  intro always
  have called := System.Reachable.step (.init rfl : system.Reachable {}) (.call 1)
  have spawned := called.step (.spawn 0 0 rfl rfl rfl)
  have suspended := (spawned.step (.execute 0 rfl)).step (.suspend 2 rfl rfl)
  have calledToo := suspended.step (.call 1)
  have spawnedToo := calledToo.step (.spawn 1 1 rfl rfl rfl)
  have suspendedToo := (spawnedToo.step (.execute 1 rfl)).step (.suspend 3 rfl rfl)
  have finished := (suspendedToo.step (.execute 2 rfl)).step (.finishRoot rfl rfl rfl)
  have owned := (always _ finished).freed ⟨0, 0, some 0, true, false⟩ (by decide)
  exact absurd owned.2.2 (by decide)

end NgrCore.TaskFrame
