import Mathlib.Data.List.Forall2
import NgrCore.TaskFrame.Ownership

/-!
Owns the nesting of calls and executions. A book divides a run into periods by its events
alone: an execution begins a period and goes back to the one before when it ends, and the
free of the first frame called in a period begins another.

Proves that runs which free frames in turn own them: last called is first freed within a
period, and only the first frame of a period outlives it.
-/

namespace NgrCore.TaskFrame

open Library

/-- `period` is the one that calls belong to, and `outer` has those that the executions in
progress will go back to, innermost first. -/
structure Book where
  period : Nat := 0
  outer : List Nat := []
  next : Nat := 1
  periodOf : Nat → Nat := fun _ => 0
  first : Nat → Option Nat := fun _ => none
  called : Nat → List Nat := fun _ => []

namespace Book

def call (book : Book) (f : Nat) : Book :=
  { book with
    periodOf := Function.update book.periodOf f book.period
    first := Function.update book.first book.period
      (some ((book.first book.period).getD f))
    called := Function.update book.called book.period (f :: book.called book.period) }

def execute (book : Book) : Book :=
  { book with period := book.next, outer := book.period :: book.outer, next := book.next + 1 }

def leave (book : Book) : Book :=
  match book.outer with
  | [] => book
  | period :: rest => { book with period := period, outer := rest }

def free (book : Book) (f : Nat) : Book :=
  { book with
    called := Function.update book.called (book.periodOf f)
      ((book.called (book.periodOf f)).erase f)
    period := if book.first (book.periodOf f) = some f then book.next else book.period
    next := if book.first (book.periodOf f) = some f then book.next + 1 else book.next }

/-- The first frame called in the period has been freed. -/
def Over (book : Book) (period : Nat) : Prop :=
  ∃ f, book.first period = some f ∧ f ∉ book.called period

theorem not_over {book : Book} {period : Nat} (f : Nat) (first : book.first period = some f)
    (member : f ∈ book.called period) : ¬ book.Over period := by
  rintro ⟨g, same, gone⟩
  obtain rfl : f = g := Option.some.inj (first.symm.trans same)
  exact gone member

/-- Every frame called later in the period of the frame has been freed, and unless it is
the first of its period, that period goes on. -/
structure InTurn (book : Book) (f : Nat) : Prop where
  last : (book.called (book.periodOf f)).head? = some f
  here : book.first (book.periodOf f) ≠ some f → book.periodOf f = book.period

end Book

/-- The coroutine that runs, if the end of it frees its frame: the one that
`__spawn_task` made has no continuation. -/
def State.root (s : State) : Option Nat :=
  match s.running with
  | [] => none
  | execution :: _ =>
      if s.continuation execution.frame = none then some execution.frame else none

def Book.after (book : Book) (s : State) : Event → Book
  | .call _ => book.call s.nextFrame
  | .execute _ => book.execute
  | .suspend _ => book.leave
  | .finish =>
      match s.root with
      | some f => (book.free f).leave
      | none => book
  | .drop c => book.free c
  | _ => book

/-- The condition on an event: no call in a period whose first frame is gone, no execution
of a facade inside another one of it, and frames are freed in turn. -/
def Nested (run : State × Book) : Event → Prop
  | .call _ => ¬ run.2.Over run.2.period
  | .execute facade => ∀ execution ∈ run.1.running, execution.facade ≠ facade
  | .finish => ∀ f, run.1.root = some f → run.2.InTurn f
  | .drop c => run.2.InTurn c
  | _ => True

/-- The runs of the thread, each with its book. -/
def recorded : System (State × Book) Event :=
  system.watch {} fun book s event _ => book.after s event

/-- The periods are the allocators: `alloc` has the one that the calls of a period push on,
from the first call on. -/
structure Tracks (s : State) (book : Book) (alloc : Nat → Option Nat) : Prop where
  current : s.kTlsAlloc = alloc book.period
  saved : List.Forall₂ (fun facade period => s.prevAlloc facade = alloc period)
    (s.running.map Execution.facade) book.outer
  facades : (s.running.map Execution.facade).Nodup
  periods : (book.period :: book.outer).Nodup
  below : ∀ period ∈ book.period :: book.outer, period < book.next
  fresh : ∀ period, book.next ≤ period → alloc period = none
  distinct : ∀ p q a, alloc p = some a → alloc q = some a → p = q
  known : ∀ p a, alloc p = some a → a < s.nextAlloc
  started : ∀ p, (alloc p).isSome ↔ (book.first p).isSome
  earlier : ∀ p f, book.first p = some f → f < s.nextFrame
  live : ∀ p a, alloc p = some a → s.live a = book.called p
  unused : ∀ p, alloc p = none → book.called p = []
  owner : ∀ f frame, s.frames f = some frame → alloc (book.periodOf f) = some frame.owner
  alive : ∀ p a, alloc p = some a → ¬ book.Over p → s.alive a = true
  first : ∀ f frame, s.frames f = some frame →
    (frame.alloc = none ↔ book.first (book.periodOf f) ≠ some f)

section Steps

variable {s : State} {book : Book} {alloc : Nat → Option Nat}

theorem tracks_init : Tracks {} {} fun _ => none := by
  constructor <;> simp

/-- Frames freed in turn are freed in order, and the other way round. -/
theorem Tracks.inTurn_iff (tracks : Tracks s book alloc) {f : Nat} {frame : Frame}
    (found : s.frames f = some frame) : book.InTurn f ↔ FreesInOrder s f := by
  have owner := tracks.owner f frame found
  have live := tracks.live _ _ owner
  have first := tracks.first f frame found
  constructor
  · intro inTurn same foundToo
    obtain rfl : frame = same := Option.some.inj (found.symm.trans foundToo)
    refine ⟨live ▸ inTurn.last, fun pointer => ?_⟩
    rw [tracks.current, ← inTurn.here (first.mp pointer)]
    exact owner
  · intro inOrder
    obtain ⟨last, swappedBack⟩ := inOrder frame found
    refine ⟨live ▸ last, fun other => ?_⟩
    have current := swappedBack (first.mpr other)
    rw [tracks.current] at current
    exact tracks.distinct _ _ _ owner current

theorem Tracks.congr (tracks : Tracks s book alloc) {next : State}
    (kTlsAlloc : next.kTlsAlloc = s.kTlsAlloc) (prevAlloc : next.prevAlloc = s.prevAlloc)
    (running : next.running.map Execution.facade = s.running.map Execution.facade)
    (alive : next.alive = s.alive) (frames : next.frames = s.frames)
    (nextAlloc : next.nextAlloc = s.nextAlloc) (nextFrame : next.nextFrame = s.nextFrame)
    (live : next.live = s.live) : Tracks next book alloc where
  current := kTlsAlloc ▸ tracks.current
  saved := by rw [running, prevAlloc]; exact tracks.saved
  facades := running ▸ tracks.facades
  periods := tracks.periods
  below := tracks.below
  fresh := tracks.fresh
  distinct := tracks.distinct
  known := nextAlloc ▸ tracks.known
  started := tracks.started
  earlier := nextFrame ▸ tracks.earlier
  live := live ▸ tracks.live
  unused := tracks.unused
  owner := frames ▸ tracks.owner
  alive := alive ▸ tracks.alive
  first := frames ▸ tracks.first

/-- What executions have saved, while their facades and periods stay as they are. -/
theorem kept_saved {before after later : Nat → Option Nat} {facades outer : List Nat}
    (saved : List.Forall₂ (fun facade period => before facade = alloc period) facades outer)
    (kept : ∀ facade ∈ facades, after facade = before facade)
    (same : ∀ period ∈ outer, later period = alloc period) :
    List.Forall₂ (fun facade period => after facade = later period) facades outer := by
  induction saved with
  | nil => exact .nil
  | cons held _ inductionHypothesis =>
      have now := (kept _ List.mem_cons_self).trans
        (held.trans (same _ List.mem_cons_self).symm)
      exact .cons now (inductionHypothesis
        (fun facade member => kept facade (List.mem_cons_of_mem _ member))
        (fun period member => same period (List.mem_cons_of_mem _ member)))

theorem Tracks.execute (tracks : Tracks s book alloc) {facade c : Nat}
    (apart : ∀ execution ∈ s.running, execution.facade ≠ facade) :
    Tracks (s.execute facade c) book.execute alloc := by
  have new : facade ∉ s.running.map Execution.facade := by simpa using apart
  have kept : ∀ other ∈ s.running.map Execution.facade,
      (s.execute facade c).prevAlloc other = s.prevAlloc other := fun other member =>
    Function.update_of_ne (ne_of_mem_of_not_mem member new) _ _
  exact
    { current := (tracks.fresh book.next le_rfl).symm
      saved := .cons ((Function.update_self _ _ _).trans tracks.current)
        (kept_saved tracks.saved kept fun _ _ => rfl)
      facades := List.nodup_cons.mpr ⟨new, tracks.facades⟩
      periods := List.nodup_cons.mpr
        ⟨fun member => Nat.lt_irrefl _ (tracks.below _ member), tracks.periods⟩
      below := by
        intro period member
        rcases List.mem_cons.mp member with rfl | old
        · exact Nat.lt_succ_self _
        · exact Nat.lt_succ_of_lt (tracks.below period old)
      fresh := fun period beyond => tracks.fresh period (Nat.le_of_succ_le beyond)
      distinct := tracks.distinct
      known := tracks.known
      started := tracks.started
      earlier := tracks.earlier
      live := tracks.live
      unused := tracks.unused
      owner := tracks.owner
      alive := tracks.alive
      first := tracks.first }

theorem Tracks.leave (tracks : Tracks s book alloc) {execution : Execution}
    {rest : List Execution} (running : s.running = execution :: rest) :
    Tracks (s.leave execution.facade rest) book.leave alloc := by
  have saved := tracks.saved
  have facades := tracks.facades
  rw [running, List.map_cons] at saved facades
  obtain ⟨period, outer, restored, others, outerEq⟩ := List.forall₂_cons_left_iff.mp saved
  have new := (List.nodup_cons.mp facades).1
  have kept : ∀ other ∈ rest.map Execution.facade,
      (s.leave execution.facade rest).prevAlloc other = s.prevAlloc other :=
    fun other member => Function.update_of_ne (ne_of_mem_of_not_mem member new) _ _
  have left : book.leave = { book with period := period, outer := outer } := by
    rw [Book.leave, outerEq]
  have periods := tracks.periods
  have below := tracks.below
  rw [outerEq] at periods below
  rw [left]
  exact
    { current := restored
      saved := kept_saved others kept fun _ _ => rfl
      facades := (List.nodup_cons.mp facades).2
      periods := (List.nodup_cons.mp periods).2
      below := fun period member => below period (List.mem_cons_of_mem _ member)
      fresh := tracks.fresh
      distinct := tracks.distinct
      known := tracks.known
      started := tracks.started
      earlier := tracks.earlier
      live := tracks.live
      unused := tracks.unused
      owner := tracks.owner
      alive := tracks.alive
      first := tracks.first }

theorem Book.call_first (book : Book) (f period : Nat) :
    (book.call f).first period =
      if period = book.period then some ((book.first book.period).getD f)
      else book.first period :=
  Function.update_apply _ _ _ _

theorem Book.call_called (book : Book) (f period : Nat) :
    (book.call f).called period =
      if period = book.period then f :: book.called book.period else book.called period :=
  Function.update_apply _ _ _ _

theorem Book.call_periodOf (book : Book) (f other : Nat) :
    (book.call f).periodOf other = if other = f then book.period else book.periodOf other :=
  Function.update_apply _ _ _ _

theorem Tracks.push (tracks : Tracks s book alloc) (n : Nat) {pa : Nat}
    (current : s.kTlsAlloc = some pa) (alive : s.alive pa = true) :
    Tracks (s.push n none pa) (book.call s.nextFrame) alloc := by
  have here : alloc book.period = some pa := tracks.current.symm.trans current
  have begun : (book.first book.period).isSome := (tracks.started _).mp (by simp [here])
  obtain ⟨oldest, firstEq⟩ := Option.isSome_iff_exists.mp begun
  have older := tracks.earlier _ _ firstEq
  have first : ∀ period, (book.call s.nextFrame).first period = book.first period := by
    intro period
    rw [Book.call_first]
    split
    · rename_i same
      rw [same, firstEq, Option.getD_some]
    · rfl
  have frames : ∀ f, (s.push n none pa).frames f =
      if f = s.nextFrame then some ⟨n, none, s.place pa, pa⟩ else s.frames f :=
    fun f => Function.update_apply _ _ _ _
  have live : ∀ a, (s.push n none pa).live a =
      if a = pa then s.nextFrame :: s.live pa else s.live a :=
    fun a => Function.update_apply _ _ _ _
  exact
    { current := tracks.current
      saved := tracks.saved
      facades := tracks.facades
      periods := tracks.periods
      below := tracks.below
      fresh := tracks.fresh
      distinct := tracks.distinct
      known := tracks.known
      started := fun period => by rw [first]; exact tracks.started period
      earlier := fun period f begins => by
        rw [first] at begins
        exact Nat.lt_succ_of_lt (tracks.earlier period f begins)
      live := fun period a known => by
        have same := tracks.distinct period book.period pa
        rw [live, Book.call_called]
        have held := tracks.live period a known
        grind
      unused := fun period none => by
        have other : period ≠ book.period := fun same => by simp [same, here] at none
        rw [Book.call_called, if_neg other]
        exact tracks.unused period none
      owner := fun f frame found => by
        rw [frames] at found
        rw [Book.call_periodOf]
        split at found
        · obtain rfl := Option.some.inj found
          rename_i new
          rw [if_pos new]
          exact here
        · rename_i old
          rw [if_neg old]
          exact tracks.owner f frame found
      alive := fun period a known goesOn => by
        by_cases same : period = book.period
        · rw [same, here] at known
          obtain rfl := Option.some.inj known
          exact alive
        · apply tracks.alive period a known
          rintro ⟨f, begins, gone⟩
          apply goesOn
          refine ⟨f, (first period).trans begins, ?_⟩
          rw [Book.call_called, if_neg same]
          exact gone
      first := fun f frame found => by
        rw [first, Book.call_periodOf]
        rw [frames] at found
        split at found
        · obtain rfl := Option.some.inj found
          rename_i new
          rw [if_pos new, firstEq, new]
          have different : oldest ≠ s.nextFrame := Nat.ne_of_lt older
          simpa using different
        · rename_i old
          rw [if_neg old]
          exact tracks.first f frame found }

theorem Tracks.create (tracks : Tracks s book alloc) (inv : Inv s) (n : Nat)
    (current : s.kTlsAlloc = none) :
    Tracks (s.createAllocator.push n (some s.nextAlloc) s.nextAlloc)
      (book.call s.nextFrame)
      (Function.update alloc book.period (some s.nextAlloc)) := by
  have here : alloc book.period = none := tracks.current.symm.trans current
  have unborn : s.live s.nextAlloc = [] := inv.dead _ (inv.unborn s.nextAlloc le_rfl)
  have unused := tracks.unused book.period here
  have unstarted : book.first book.period = none := by
    have begun := (tracks.started book.period).not
    simpa [here] using begun
  have update : ∀ period, Function.update alloc book.period (some s.nextAlloc) period =
      if period = book.period then some s.nextAlloc else alloc period :=
    fun period => Function.update_apply _ _ _ _
  have frames : ∀ f, (s.createAllocator.push n (some s.nextAlloc) s.nextAlloc).frames f =
      if f = s.nextFrame then
        some ⟨n, some s.nextAlloc, s.createAllocator.place s.nextAlloc, s.nextAlloc⟩
      else s.frames f :=
    fun f => Function.update_apply _ _ _ _
  have live : ∀ a, (s.createAllocator.push n (some s.nextAlloc) s.nextAlloc).live a =
      if a = s.nextAlloc then s.nextFrame :: s.live s.nextAlloc else s.live a :=
    fun a => Function.update_apply _ _ _ _
  have up : ∀ a, (s.createAllocator.push n (some s.nextAlloc) s.nextAlloc).alive a =
      if a = s.nextAlloc then true else s.alive a :=
    fun a => Function.update_apply _ _ _ _
  have outside : ∀ period ∈ book.outer, period ≠ book.period := fun period member same =>
    (List.nodup_cons.mp tracks.periods).1 (same ▸ member)
  have old : ∀ f frame, s.frames f = some frame → book.periodOf f ≠ book.period := by
    intro f frame found same
    have owner := tracks.owner f frame found
    rw [same, here] at owner
    cases owner
  exact
    { current := by
        show some s.nextAlloc =
          Function.update alloc book.period (some s.nextAlloc) book.period
        rw [Function.update_self]
      saved := kept_saved tracks.saved (fun _ _ => rfl) fun period member =>
        Function.update_of_ne (outside period member) _ _
      facades := tracks.facades
      periods := tracks.periods
      below := tracks.below
      fresh := fun period beyond => by
        have within := tracks.below book.period List.mem_cons_self
        have beyond : book.next ≤ period := beyond
        rw [update, if_neg (by omega)]
        exact tracks.fresh period beyond
      distinct := fun p q a atP atQ => by
        have before := tracks.distinct p q a
        have knownP := tracks.known p a
        have knownQ := tracks.known q a
        rw [update] at atP atQ
        grind
      known := fun p a atP => by
        have knownP := tracks.known p a
        rw [update] at atP
        show a < s.nextAlloc + 1
        grind
      started := fun period => by
        have begun := tracks.started period
        rw [update, Book.call_first]
        split <;> simp [*]
      earlier := fun period f begins => by
        have before := tracks.earlier period f
        rw [Book.call_first, unstarted, Option.getD_none] at begins
        show f < s.nextFrame + 1
        grind
      live := fun period a known => by
        have held := tracks.live period a
        have before := tracks.known period a
        rw [update] at known
        rw [live, Book.call_called, unborn, unused]
        grind
      unused := fun period none => by
        have before := tracks.unused period
        rw [update] at none
        rw [Book.call_called]
        grind
      owner := fun f frame found => by
        have before := tracks.owner f frame
        have apart := old f frame
        rw [frames] at found
        rw [Book.call_periodOf, update]
        grind
      alive := fun period a known goesOn => by
        rw [update] at known
        rw [up]
        by_cases same : period = book.period
        · rw [if_pos same] at known
          obtain rfl := Option.some.inj known
          exact if_pos rfl
        · rw [if_neg same] at known
          rw [if_neg (Nat.ne_of_lt (tracks.known period a known))]
          apply tracks.alive period a known
          rintro ⟨f, begins, gone⟩
          apply goesOn
          refine ⟨f, ?_, ?_⟩
          · rw [Book.call_first, if_neg same]
            exact begins
          · rw [Book.call_called, if_neg same]
            exact gone
      first := fun f frame found => by
        have before := tracks.first f frame
        have apart := old f frame
        rw [frames] at found
        rw [Book.call_periodOf, Book.call_first, unstarted, Option.getD_none]
        grind }

theorem Tracks.pop (tracks : Tracks s book alloc) {f : Nat} {frame : Frame}
    (found : s.frames f = some frame) :
    Tracks (s.pop frame.owner f frame)
      { book with
        called := Function.update book.called (book.periodOf f)
          ((book.called (book.periodOf f)).erase f) } alloc := by
  have owner := tracks.owner f frame found
  have held := tracks.live _ _ owner
  have frames : ∀ g, (s.pop frame.owner f frame).frames g =
      if g = f then none else s.frames g :=
    fun g => Function.update_apply _ _ _ _
  have live : ∀ a, (s.pop frame.owner f frame).live a =
      if a = frame.owner then (s.live frame.owner).erase f else s.live a :=
    fun a => Function.update_apply _ _ _ _
  have remaining : ∀ g other, (s.pop frame.owner f frame).frames g = some other →
      s.frames g = some other := by
    intro g other present
    rw [frames] at present
    split at present
    · cases present
    · exact present
  exact
    { current := tracks.current
      saved := tracks.saved
      facades := tracks.facades
      periods := tracks.periods
      below := tracks.below
      fresh := tracks.fresh
      distinct := tracks.distinct
      known := tracks.known
      started := tracks.started
      earlier := tracks.earlier
      live := fun period a known => by
        have same := tracks.live period a known
        have unique := tracks.distinct period (book.periodOf f) frame.owner
        simp only [Function.update_apply]
        rw [live]
        grind
      unused := fun period none => by
        have empty := tracks.unused period none
        simp only [Function.update_apply]
        split
        · rename_i here
          rw [← here, empty, List.erase_nil]
        · exact empty
      owner := fun g other present => tracks.owner g other (remaining g other present)
      alive := fun period a known goesOn => by
        apply tracks.alive period a known
        rintro ⟨g, begins, gone⟩
        apply goesOn
        refine ⟨g, begins, fun member => gone ?_⟩
        simp only [Function.update_apply] at member
        split at member
        · rename_i here
          rw [here]
          exact List.mem_of_mem_erase member
        · exact member
      first := fun g other present => tracks.first g other (remaining g other present) }

/-- The end of an allocator whose first frame is gone: a new period begins. -/
theorem Tracks.destroyAllocator (tracks : Tracks s book alloc) {period a : Nat}
    (here : alloc period = some a) (ended : book.Over period) :
    Tracks (s.destroyAllocator a)
      { book with period := book.next, next := book.next + 1 } alloc := by
  have alive : ∀ other, (s.destroyAllocator a).alive other =
      if other = a then false else s.alive other :=
    fun other => Function.update_apply _ _ _ _
  exact
    { current := (tracks.fresh book.next le_rfl).symm
      saved := tracks.saved
      facades := tracks.facades
      periods := by
        refine List.nodup_cons.mpr ⟨fun member => ?_, (List.nodup_cons.mp tracks.periods).2⟩
        exact Nat.lt_irrefl _ (tracks.below _ (List.mem_cons_of_mem _ member))
      below := by
        intro other member
        rcases List.mem_cons.mp member with rfl | old
        · exact Nat.lt_succ_self _
        · exact Nat.lt_succ_of_lt (tracks.below other (List.mem_cons_of_mem _ old))
      fresh := fun other beyond => tracks.fresh other (Nat.le_of_succ_le beyond)
      distinct := tracks.distinct
      known := tracks.known
      started := tracks.started
      earlier := tracks.earlier
      live := tracks.live
      unused := tracks.unused
      owner := tracks.owner
      alive := fun other b known goesOn => by
        rw [alive]
        split
        · rename_i same
          rw [same] at known
          exact absurd (tracks.distinct _ _ _ known here ▸ ended) goesOn
        · exact tracks.alive other b known goesOn
      first := tracks.first }

theorem Tracks.operatorDelete (tracks : Tracks s book alloc) (inv : Inv s) {f : Nat}
    {frame : Frame} (found : s.frames f = some frame) (inTurn : book.InTurn f) :
    Tracks (s.operatorDelete f frame) (book.free f) alloc := by
  have owner := tracks.owner f frame found
  have first := tracks.first f frame found
  have popped := tracks.pop found
  have unique := inv.nodup frame.owner
  rw [tracks.live _ _ owner] at unique
  unfold State.operatorDelete Book.free
  cases recorded : frame.alloc with
  | none =>
      have later := first.mp recorded
      have current := tracks.current.trans ((inTurn.here later) ▸ owner)
      simp only [current, if_neg later]
      exact popped
  | some a =>
      have oldest : book.first (book.periodOf f) = some f := by
        by_contra later
        rw [first.mpr later] at recorded
        cases recorded
      obtain ⟨rfl, _⟩ := inv.first f frame a found recorded
      simp only [if_pos oldest]
      refine popped.destroyAllocator owner ⟨f, oldest, ?_⟩
      simp only [Function.update_self]
      exact unique.not_mem_erase

/-- The book says which calls find a live allocator. -/
theorem Tracks.operatorNew (tracks : Tracks s book alloc) (inv : Inv s) (n : Nat)
    (goesOn : ¬ book.Over book.period) :
    (∀ pa, s.kTlsAlloc = some pa → s.alive pa = true) ∧
      ∃ alloc, Tracks (s.operatorNew n) (book.call s.nextFrame) alloc := by
  have alive : ∀ pa, s.kTlsAlloc = some pa → s.alive pa = true := fun pa current =>
    tracks.alive _ pa (tracks.current.symm.trans current) goesOn
  refine ⟨alive, ?_⟩
  unfold State.operatorNew
  cases current : s.kTlsAlloc with
  | none => exact ⟨_, tracks.create inv n current⟩
  | some pa => exact ⟨_, tracks.push n current (alive pa current)⟩

theorem operatorDelete_running (f : Nat) (frame : Frame) :
    (s.operatorDelete f frame).running = s.running := by
  unfold State.operatorDelete
  cases frame.alloc with
  | some alloc => rfl
  | none => cases s.kTlsAlloc <;> rfl

theorem State.root_eq {execution : Execution} {rest : List Execution}
    (running : s.running = execution :: rest) :
    s.root = if s.continuation execution.frame = none then some execution.frame else none := by
  rw [State.root, running]

/-- A nested event meets the condition on allocators, and the book keeps up. -/
theorem Tracks.step (tracks : Tracks s book alloc) (inv : Inv s) {event : Event} {next : State}
    (nested : Nested (s, book) event) (step : Step s event next) :
    Orderly s event ∧ ∃ alloc, Tracks next (book.after s event) alloc := by
  cases step with
  | call n => exact tracks.operatorNew inv n nested
  | drop c found =>
      exact ⟨(tracks.inTurn_iff found).mp nested, _, tracks.operatorDelete inv found nested⟩
  | execute facade => exact ⟨trivial, _, tracks.execute nested⟩
  | @suspend facade execution rest running free =>
      have armed : Tracks
          { s with resume := Function.update s.resume facade (some execution.frame) }
          book alloc :=
        tracks.congr rfl rfl rfl rfl rfl rfl rfl rfl
      exact ⟨trivial, _, armed.leave running⟩
  | @finishRoot execution rest frame running root found =>
      have rootEq : s.root = some execution.frame := by
        rw [State.root_eq running, if_pos root]
      have inTurn := nested execution.frame rootEq
      have freed := tracks.operatorDelete inv found inTurn
      have left := freed.leave ((operatorDelete_running _ _).trans running)
      refine ⟨fun other others runningToo _ => ?_, alloc, ?_⟩
      · obtain rfl : execution = other := (List.cons.inj (running.symm.trans runningToo)).1
        exact (tracks.inTurn_iff found).mp inTurn
      · simp only [Book.after, rootEq]
        exact left
  | @finishChild execution rest parent running child =>
      have rootEq : s.root = none := by
        rw [State.root_eq running, if_neg (by simp [child])]
      refine ⟨fun other others runningToo root => ?_, alloc, ?_⟩
      · obtain rfl : execution = other := (List.cons.inj (running.symm.trans runningToo)).1
        rw [child] at root
        cases root
      · simp only [Book.after, rootEq]
        exact tracks.congr rfl rfl (by rw [running]; rfl) rfl rfl rfl rfl rfl
  | @await c execution rest running =>
      exact ⟨trivial, alloc, tracks.congr rfl rfl (by rw [running]; rfl) rfl rfl rfl rfl rfl⟩
  | spawn => exact ⟨trivial, alloc, tracks.congr rfl rfl rfl rfl rfl rfl rfl rfl⟩

/-- The runs of nested calls and executions are orderly. -/
theorem orderly_of_nested {run : State × Book}
    (reachable : (recorded.restrict Nested).Reachable run) :
    (system.restrict Orderly).Reachable run.1 ∧ ∃ alloc, Tracks run.1 run.2 alloc := by
  induction reachable with
  | @init run initial =>
      obtain ⟨s, book⟩ := run
      obtain ⟨rfl, rfl⟩ := initial
      exact ⟨.init rfl, _, tracks_init⟩
  | @step before after event _ step inductionHypothesis =>
      obtain ⟨nested, stepped, written⟩ := step
      obtain ⟨orderly, alloc, tracks⟩ := inductionHypothesis
      obtain ⟨inOrder, kept⟩ := tracks.step (inv_of_orderly orderly) nested stepped
      rw [written]
      exact ⟨orderly.step ⟨inOrder, stepped⟩, kept⟩

/-- In every run of nested calls and executions frames and allocators are owned, and a
frame freed next is freed as it should be if and only if it is freed in turn. -/
theorem owned_of_nested (reachable : (recorded.restrict Nested).Reachable (s, book)) :
    Owned s ∧ ∀ f frame, s.frames f = some frame →
      (Owned (s.operatorDelete f frame) ↔ book.InTurn f) := by
  obtain ⟨orderly, alloc, tracks⟩ := orderly_of_nested reachable
  obtain ⟨owned, freed⟩ := owned_of_orderly orderly
  exact ⟨owned, fun f frame found => (freed f frame found).trans (tracks.inTurn_iff found).symm⟩

end Steps

/-- A task awaits a second one, which awaits a third and then suspends. Another execution
resumes the second, and it and the first one finish. -/
theorem owned_nested : ∃ s book, (recorded.restrict Nested).Reachable (s, book) ∧
    s.freed.map Freed.frame = [2, 1, 0] ∧ s.destroyed.map Destroyed.allocator = [1, 0] ∧
    Owned s := by
  have go {s next : State} {book : Book} {event : Event}
      (reached : (recorded.restrict Nested).Reachable (s, book)) (step : Step s event next)
      (nested : Nested (s, book) event) :
      (recorded.restrict Nested).Reachable (next, book.after s event) :=
    reached.step (show (recorded.restrict Nested).Step (s, book) event (next, book.after s event)
      from ⟨nested, step, rfl⟩)
  have start : (recorded.restrict Nested).Reachable ({}, {}) := .init ⟨rfl, rfl⟩
  have called := go start (.call 1) nofun
  have executed := go (go called (.spawn 0 0 rfl rfl rfl) trivial) (.execute 0 rfl) nofun
  have second := go (go executed (.call 1) nofun) (.await 1 rfl rfl rfl) trivial
  have third := go (go second (.call 1) (Book.not_over 1 rfl (.head _)))
    (.await 2 rfl rfl rfl) trivial
  have done := go (go third (.finishChild rfl rfl) nofun) (.drop 2 rfl nofun)
    ⟨rfl, fun _ => rfl⟩
  have suspended := go done (.suspend 5 rfl rfl) trivial
  have resumed := go suspended (.execute 5 rfl) nofun
  have dropped := go (go resumed (.finishChild rfl rfl) nofun) (.drop 1 rfl nofun)
    ⟨rfl, fun later => absurd rfl later⟩
  have finished := go dropped (.finishRoot rfl rfl rfl) fun f root =>
    Option.some.inj root ▸ ⟨rfl, fun later => absurd rfl later⟩
  exact ⟨_, _, finished, rfl, rfl, (owned_of_nested finished).1⟩

end NgrCore.TaskFrame
