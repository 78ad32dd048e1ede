import NgrCore.LocalSource.Blocks

/-!
Owns the subranges that `__acquire` hands out: they lie inside of their blocks, live ones
never overlap, and those of one thread follow each other while they fit.

Nobody else writes below the bump of the thread that owns a block, so what the thread
acquires next is new.
-/

namespace NgrCore.LocalSource

open NgrCore.Library

section Definitions

def Subrange.Apart (x y : Subrange) : Prop :=
  x.source ≠ y.source ∨ x.offset + x.len ≤ y.offset ∨ y.offset + y.len ≤ x.offset

/-- A subrange that is not empty and lies in its block. -/
def Subrange.Inside (x : Subrange) : Prop := 1 ≤ x.len ∧ x.offset + x.len ≤ 4096

/-- The place of a subrange that was acquired right after the other. -/
structure Subrange.After (newer older : Subrange) : Prop where
  fits : older.offset + older.len + newer.len ≤ 4096 →
    newer.source = older.source ∧ newer.offset = older.offset + older.len
  starts : 4096 < older.offset + older.len + newer.len → newer.offset = 0

/-- The subranges that one thread has acquired, latest first. -/
def Contiguous : List Subrange → Prop
  | [] => True
  | [first] => first.offset = 0
  | newer :: older :: rest => newer.After older ∧ Contiguous (older :: rest)

/-- The bump is behind the subrange acquired last. -/
def Source.Current (source : Source) : List Subrange → Prop
  | [] => source.bump = 4096
  | last :: _ => source.consume = some last.source ∧ source.bump = last.offset + last.len

/-- A call of `_M_acquire` whose argument does not fit. -/
structure Source.Waiting (source : Source) (history : List Subrange) (n : Nat) : Prop where
  current : source.Current history
  positive : 1 ≤ n
  small : n ≤ 4096
  full : 4096 < source.bump + n

/-- What is known of the source where a thread stands. -/
def Pc.Ready (pc : Pc) (source : Source) (history : List Subrange) : Prop :=
  match pc with
  | .idle | .giving _ none => source.Current history
  | .drop n | .giving _ (some n) | .popping n | .consume n => source.Waiting history n
  | .take n => 1 ≤ n ∧ source.bump + n ≤ 4096 ∧ (source.Current history ∨
      source.bump = 0 ∧ ∀ last ∈ history.head?, 4096 < last.offset + last.len + n)
  | .exited => True

variable {Thread : Type}

/-- The subranges of a state. -/
structure SubrangesInv (s : State Thread) : Prop where
  inside : ∀ x ∈ s.live, x.Inside
  apart : s.live.Pairwise Subrange.Apart
  below : ∀ t blk, s.owner t = some blk →
    ∀ x ∈ s.live, x.source = blk → x.offset + x.len ≤ (s.source t).bump
  ready : ∀ t, (s.pc t).Ready (s.source t) (s.history t)
  history : ∀ t, ∀ x ∈ s.history t, x.Inside
  contiguous : ∀ t, Contiguous (s.history t)

end Definitions

section Local

variable {source next : Source} {history : List Subrange} {n : Nat}

theorem Source.Current.congr (current : source.Current history)
    (consume : next.consume = source.consume) (bump : next.bump = source.bump) :
    next.Current history := by
  cases history with
  | nil => exact bump.trans current
  | cons last rest => exact ⟨consume.trans current.1, bump.trans current.2⟩

theorem Source.Current.bump_le (current : source.Current history)
    (inside : ∀ x ∈ history, x.Inside) : source.bump ≤ 4096 := by
  cases history with
  | nil => exact Nat.le_of_eq current
  | cons last rest => exact current.2 ▸ (inside last List.mem_cons_self).2

theorem Source.Waiting.congr (waiting : source.Waiting history n)
    (consume : next.consume = source.consume) (bump : next.bump = source.bump) :
    next.Waiting history n :=
  ⟨waiting.current.congr consume bump, waiting.positive, waiting.small, bump ▸ waiting.full⟩

/-- What does not fit behind the bump does not fit behind the last subrange. -/
theorem Source.Waiting.behind (waiting : source.Waiting history n) :
    ∀ last ∈ history.head?, 4096 < last.offset + last.len + n := by
  intro last first
  obtain ⟨rest, rfl⟩ : ∃ rest, history = last :: rest := List.head?_eq_some_iff.mp first
  exact waiting.current.2 ▸ waiting.full

theorem Source.Waiting.proceed (waiting : source.Waiting history n) :
    (source.proceed n).Ready source history := by
  unfold Source.proceed
  split <;> exact waiting

theorem Source.Current.enter (current : source.Current history)
    (inside : ∀ x ∈ history, x.Inside) (positive : 1 ≤ n) (small : n ≤ 4096) :
    (source.enter n).Ready source history := by
  have bounded := current.bump_le inside
  unfold Source.enter
  split
  next fits => exact ⟨positive, by omega, .inl current⟩
  next long =>
    have waiting : source.Waiting history n := ⟨current, positive, small, by omega⟩
    split
    · exact waiting.proceed
    · exact waiting

theorem Pc.Ready.resume {blk : Addr} {resume : Option Nat}
    (ready : (Pc.giving blk resume).Ready source history) :
    (source.resume resume).Ready source history := by
  cases resume with
  | none => exact ready
  | some n => exact ready.proceed

theorem Pc.Ready.congr_giving {blk : Addr} {resume : Option Nat}
    (ready : (Pc.giving blk resume).Ready source history)
    (consume : next.consume = source.consume) (bump : next.bump = source.bump) :
    (Pc.giving blk resume).Ready next history := by
  cases resume with
  | none => exact Source.Current.congr ready consume bump
  | some n => exact Source.Waiting.congr ready consume bump

theorem contiguous_cons {blk : Addr} (owned : source.consume = some blk)
    (ready : (Pc.take n).Ready source history) (inside : ∀ x ∈ history, x.Inside)
    (contiguous : Contiguous history) : Contiguous (⟨blk, source.bump, n⟩ :: history) := by
  obtain ⟨positive, fits, current | ⟨fresh, full⟩⟩ := ready
  · cases history with
    | nil =>
        have bump : source.bump = 4096 := current
        omega
    | cons last rest =>
        refine ⟨⟨fun _ => ⟨?_, current.2⟩, fun long => ?_⟩, contiguous⟩
        · exact Option.some.inj (owned.symm.trans current.1)
        · have bump := current.2
          change 4096 < last.offset + last.len + n at long
          omega
  · cases history with
    | nil => exact fresh
    | cons last rest =>
        refine ⟨⟨fun short => ?_, fun _ => fresh⟩, contiguous⟩
        have long := full last rfl
        change last.offset + last.len + n ≤ 4096 at short
        omega

end Local

section Recycle

variable {Thread : Type} {s after : State Thread} {t : Thread} {blk : Addr} {resume : Option Nat}

theorem ready_of {pc : Pc} {source : Source} {history : List Subrange} (here : s.pc t = pc)
    (mine : s.source t = source) (ready : pc.Ready source history) :
    (s.pc t).Ready (s.source t) history := by
  rw [here, mine]
  exact ready

/-- The list that a block goes into does not matter to the cursor. -/
theorem Recycled.ready (recycled : Recycled s after t blk resume)
    (before : (Pc.giving blk resume).Ready (s.source t) (s.history t)) :
    (after.pc t).Ready (after.source t) (s.history t) := by
  have ready := before.congr_giving recycled.consume recycled.bump
  rcases recycled.pc with pc | pc
  · rw [pc]
    exact ready
  · rw [pc]
    exact ready.resume

end Recycle

section Preservation

variable {Thread : Type} [DecidableEq Thread] {s after : State Thread} {t : Thread} {blk : Addr}
  {action : Action}

/-- The thread that steps is ready again, and nothing is known of the others that was not. -/
theorem Move.ready (inv : SubrangesInv s) (move : Move s t action after)
    (others : ∀ u, u ≠ t → after.history u = s.history u)
    (mine : (after.pc t).Ready (after.source t) (after.history t)) (u : Thread) :
    (after.pc u).Ready (after.source u) (after.history u) := by
  by_cases own : u = t
  · exact own ▸ mine
  · rw [(move.others u own).1, (move.others u own).2, others u own]
    exact inv.ready u

theorem SubrangesInv.frame (inv : SubrangesInv s) (move : Move s t action after)
    (live : after.live.Sublist s.live) (history : after.history = s.history)
    (owner : ∀ blk, after.owner t = some blk →
      s.owner t = some blk ∧ (after.source t).bump = (s.source t).bump)
    (mine : (after.pc t).Ready (after.source t) (s.history t)) : SubrangesInv after := by
  refine ⟨fun x member => inv.inside x (live.subset member), inv.apart.sublist live,
    fun u blk owned x member source => ?_, ?_, history ▸ inv.history, history ▸ inv.contiguous⟩
  · have before := live.subset member
    by_cases own : u = t
    · rw [own] at owned ⊢
      rw [(owner blk owned).2]
      exact inv.below t blk (owner blk owned).1 x before source
    · rw [(move.others u own).2]
      rw [move.owner_of_ne u own] at owned
      exact inv.below u blk owned x before source
  · refine move.ready inv (fun u _ => by rw [history]) ?_
    rw [history]
    exact mine

theorem SubrangesInv.consume (inv : SubrangesInv s) (move : Move s t action after)
    (live : after.live = s.live) (history : after.history = s.history)
    (mine : after.owner t = some blk) (unused : s.liveOf blk = 0)
    (ready : (after.pc t).Ready (after.source t) (s.history t)) : SubrangesInv after := by
  refine ⟨live ▸ inv.inside, live ▸ inv.apart, fun u b owned x member source => ?_, ?_,
    history ▸ inv.history, history ▸ inv.contiguous⟩
  · rw [live] at member
    by_cases own : u = t
    · rw [own, mine] at owned
      cases owned
      have used := liveOf_pos member
      rw [source, unused] at used
      exact absurd used (Nat.lt_irrefl 0)
    · rw [(move.others u own).2]
      rw [move.owner_of_ne u own] at owned
      exact inv.below u b owned x member source
  · refine move.ready inv (fun u _ => by rw [history]) ?_
    rw [history]
    exact ready

theorem SubrangesInv.take (inv : SubrangesInv s) (blocks : BlocksInv s) {n : Nat}
    (pc : s.pc t = .take n) (owned : (s.source t).consume = some blk)
    (move : Move s t action ((s.addUse blk 1).acquired t blk n)) :
    SubrangesInv ((s.addUse blk 1).acquired t blk n) := by
  have ready := inv.ready t
  rw [pc] at ready
  have owner : s.owner t = some blk := (owner_eq pc rfl).trans owned
  have inside : Subrange.Inside ⟨blk, (s.source t).bump, n⟩ := ⟨ready.1, ready.2.1⟩
  have source : ((s.addUse blk 1).acquired t blk n).source t =
      { s.source t with bump := (s.source t).bump + n } := Function.update_self _ _ _
  have history : ((s.addUse blk 1).acquired t blk n).history t =
      ⟨blk, (s.source t).bump, n⟩ :: s.history t := Function.update_self _ _ _
  have others (u : Thread) (own : u ≠ t) :
      ((s.addUse blk 1).acquired t blk n).history u = s.history u :=
    Function.update_of_ne own _ _
  refine ⟨fun x member => ?_, List.pairwise_cons.mpr ⟨fun x member => ?_, inv.apart⟩,
    fun u b here x member same => ?_, move.ready inv others ?_, fun u => ?_, fun u => ?_⟩
  · rcases List.mem_cons.mp member with rfl | before
    · exact inside
    · exact inv.inside x before
  · by_cases same : x.source = blk
    · exact .inr (.inr (inv.below t blk owner x member same))
    · exact .inl (Ne.symm same)
  · by_cases own : u = t
    · rw [own, source]
      rcases List.mem_cons.mp member with rfl | before
      · exact Nat.le_refl _
      · have now : ((s.addUse blk 1).acquired t blk n).owner t = some blk := by
          rw [owner_eq (Function.update_self _ _ _) source]
          exact owned
        rw [own, now] at here
        cases here
        exact Nat.le_trans (inv.below t blk owner x before same) (Nat.le_add_right _ _)
    · rw [(move.others u own).2]
      rw [move.owner_of_ne u own] at here
      rcases List.mem_cons.mp member with rfl | before
      · exact absurd (blocks.counted.sole u t b here (same ▸ owner)) own
      · exact inv.below u b here x before same
  · have idle : ((s.addUse blk 1).acquired t blk n).pc t = .idle := Function.update_self _ _ _
    rw [source, history, idle]
    exact ⟨owned, rfl⟩
  · by_cases own : u = t
    · rw [own, history]
      exact List.forall_mem_cons.mpr ⟨inside, inv.history t⟩
    · rw [others u own]
      exact inv.history u
  · by_cases own : u = t
    · rw [own, history]
      exact contiguous_cons owned ready (inv.history t) (inv.contiguous t)
    · rw [others u own]
      exact inv.contiguous u

theorem Move.subranges (inv : SubrangesInv s) (blocks : BlocksInv s)
    (move : Move s t action after) : SubrangesInv after := by
  have moved := move
  have ready := inv.ready t
  cases move with
  | @acquire n idle positive small =>
      rw [idle] at ready
      have enters : (s.go t ((s.source t).enter n)).pc t = (s.source t).enter n :=
        Function.update_self _ _ _
      refine inv.frame moved (.refl _) rfl (fun blk owned => ⟨?_, rfl⟩) ?_
      · rw [owner_eq enters rfl] at owned
        exact (owner_eq idle rfl).trans (owner_enter.symm.trans owned)
      · exact ready_of enters rfl (Source.Current.enter ready (inv.history t) positive small)
  | @dropLast n blk pc owned last =>
      rw [pc] at ready
      have put := recycled (s.addUse blk (-1)) t blk (some n)
      refine inv.frame moved (put.live ▸ .refl _) put.history (fun b here => ?_) ?_
      · cases put.owner_some.symm.trans here
      · exact put.ready ready
  | @drop n blk pc owned shared =>
      rw [pc] at ready
      have proceeds : ((s.addUse blk (-1)).go t ((s.source t).proceed n)).pc t =
          (s.source t).proceed n := Function.update_self _ _ _
      refine inv.frame moved (.refl _) rfl (fun b here => ?_) ?_
      · cases ((owner_eq proceeds rfl).trans owner_proceed).symm.trans here
      · exact ready_of proceeds rfl (Source.Waiting.proceed ready)
  | @give blk resume pc =>
      rw [pc] at ready
      have resumes : (s.go t ((s.source t).resume resume)).pc t = (s.source t).resume resume :=
        Function.update_self _ _ _
      refine inv.frame moved (.refl _) rfl (fun b here => ⟨?_, rfl⟩) ?_
      · rw [owner_eq resumes rfl] at here
        cases resume with
        | none => exact (owner_eq pc rfl).trans here
        | some n => cases owner_proceed.symm.trans here
      · exact ready_of resumes rfl ready.resume
  | @refill n batch pc some =>
      rw [pc] at ready
      refine inv.frame moved (.refl _) rfl (fun b here => ?_) ?_
      · rw [owner_eq (Function.update_self _ _ _) rfl] at here
        cases here
      · exact ready_of (Function.update_self _ _ _) (Function.update_self _ _ _)
          (Source.Waiting.congr ready rfl rfl)
  | @consume n blk rest pc queue =>
      rw [pc] at ready
      have unused : s.useCount blk = 0 := by
        refine blocks.lists.unused t blk ?_
        rw [free_eq pc rfl]
        change blk ∈ (s.source t).queue
        rw [queue]
        exact List.mem_cons_self
      refine inv.consume moved rfl rfl ?_ (blocks.nobody unused).1 ?_
      · rw [owner_eq (Function.update_self _ _ _) (Function.update_self _ _ _)]
        rfl
      · refine ready_of (Function.update_self _ _ _) (Function.update_self _ _ _)
          ⟨ready.positive, ?_, .inr ⟨rfl, ready.behind⟩⟩
        exact Nat.le_trans (Nat.le_of_eq (Nat.zero_add n)) ready.small
  | take pc owned => exact inv.take blocks pc owned moved
  | @releaseLast x idle held last =>
      rw [idle] at ready
      have put := recycled ({ s with live := s.live.erase x }.addUse x.source (-1)) t x.source none
      refine inv.frame moved (put.live ▸ List.erase_sublist) put.history (fun b here => ?_) ?_
      · exact ⟨(owner_eq idle rfl).trans (put.owner_none.symm.trans here), put.bump⟩
      · exact put.ready ready
  | @release x idle held shared =>
      exact inv.frame moved List.erase_sublist rfl (fun b here => ⟨here, rfl⟩) ready
  | @exitOwner blk idle owned =>
      refine inv.frame moved (.refl _) rfl (fun b here => ?_) ?_
      · rw [owner_eq (Function.update_self _ _ _) (Function.update_self _ _ _)] at here
        cases here
      · exact ready_of (Function.update_self _ _ _) rfl trivial
  | exit idle owned =>
      refine inv.frame moved (.refl _) rfl (fun b here => ?_) ?_
      · rw [owner_eq (Function.update_self _ _ _) (Function.update_self _ _ _)] at here
        cases here
      · exact ready_of (Function.update_self _ _ _) rfl trivial

theorem subranges_of_reachable (reachable : (system Thread).Reachable s) : SubrangesInv s := by
  refine reachable.invariant _ ?_ ?_
  · rintro s rfl
    exact ⟨nofun, .nil, nofun, fun _ => rfl, nofun, fun _ => trivial⟩
  · rintro s ⟨t, action⟩ after earlier inv ⟨move, _⟩
    exact move.subranges inv (blocks_of_reachable earlier)

end Preservation

section Sound

/-- What the callers of `__acquire` and `__release` rely on. -/
structure Sound {Thread : Type} [DecidableEq Thread] (s : State Thread) : Prop where
  owned : ∀ t blk, s.owner t = some blk → s.useCount blk = s.liveOf blk + 1
  unowned : ∀ blk, (∀ t, s.owner t ≠ some blk) → s.useCount blk = s.liveOf blk
  sole : ∀ t u blk, s.owner t = some blk → s.owner u = some blk → t = u
  free : ∀ t, ∀ blk ∈ s.free t, s.liveOf blk = 0 ∧ ∀ u, s.owner u ≠ some blk
  apart : ∀ t u blk, blk ∈ s.free t → blk ∈ s.free u → t = u
  enters : ∀ label after, (system Thread).Step s label after → ∀ blk,
    s.entries blk < after.entries blk → after.liveOf blk = 0 ∧ ∀ t, after.owner t ≠ some blk
  once : ∀ blk, s.entries blk ≤ 1
  inside : ∀ x ∈ s.live, x.Inside
  disjoint : s.live.Pairwise Subrange.Apart
  returned : ∀ t, ∀ x ∈ s.history t, x.Inside
  contiguous : ∀ t, Contiguous (s.history t)

variable {Thread : Type} [DecidableEq Thread] {s : State Thread}

/-- Live subranges never overlap. -/
theorem live_subranges (reachable : (system Thread).Reachable s) : Sound s := by
  have blocks := blocks_of_reachable reachable
  have subranges := subranges_of_reachable reachable
  refine ⟨blocks.counted.owned, blocks.counted.unowned, blocks.counted.sole,
    fun t blk member => blocks.nobody (blocks.lists.unused t blk member), blocks.lists.apart,
    fun label after step blk more => ?_, fun blk => ?_, subranges.inside, subranges.apart,
    subranges.history, subranges.contiguous⟩
  · have later := blocks_of_reachable (reachable.step step)
    rcases later.entries blk with none | ⟨_, unused⟩
    · omega
    · exact later.nobody unused
  · rcases blocks.entries blk with none | ⟨one, _⟩
    · omega
    · omega

theorem reachable_move (reachable : (system Thread).Reachable s) {t : Thread} {action : Action}
    {after : State Thread} (move : Move s t action after)
    (handed : ∀ batch, action = .refill batch → s.Unheld batch) :
    (system Thread).Reachable after := by
  have step : (system Thread).Step s (t, action) after := ⟨move, handed⟩
  exact reachable.step step

theorem acquired_reachable : ∃ s : State Unit, (system Unit).Reachable s ∧
    s.live = [⟨7, 0, 4096⟩] ∧ s.pc () = .idle ∧ s.useCount 7 = 2 ∧
    s.source () = { consume := some 7, bump := 4096, count := 15 } := by
  have start : (system Unit).Reachable {} := .init rfl
  have called := reachable_move start (t := ())
    (.acquire (n := 4096) rfl (by decide) (by decide)) nofun
  have some : [7] ≠ [] := nofun
  have filled := reachable_move called (t := ()) (.refill (n := 4096) rfl some) ?_
  · have consumed := reachable_move filled (t := ()) (.consume rfl rfl) nofun
    have taken := reachable_move consumed (t := ()) (.take rfl rfl) nofun
    exact ⟨_, taken, rfl, rfl, rfl, rfl⟩
  · rintro batch ⟨⟩
    exact ⟨List.nodup_singleton 7, fun blk _ => ⟨rfl, fun _ => List.not_mem_nil⟩⟩

/-- One thread has acquired two subranges of a block, another a block as a whole. -/
theorem live_subranges_acquired : ∃ s : State Bool, (system Bool).Reachable s ∧
    s.live = [⟨8, 0, 4096⟩, ⟨7, 100, 200⟩, ⟨7, 0, 100⟩] ∧ s.owner true = some 7 ∧
    s.owner false = some 8 ∧ Sound s := by
  have start : (system Bool).Reachable {} := .init rfl
  have some (blk : Addr) : [blk] ≠ [] := nofun
  have called := reachable_move start (t := true)
    (.acquire (n := 100) rfl (by decide) (by decide)) nofun
  have filled := reachable_move called (t := true) (.refill (n := 100) rfl (some 7)) (by
    rintro batch ⟨⟩
    refine ⟨List.nodup_singleton 7, fun blk member => ?_⟩
    obtain rfl := List.mem_singleton.mp member
    exact ⟨by decide, by decide⟩)
  have consumed := reachable_move filled (t := true) (.consume rfl rfl) nofun
  have first := reachable_move consumed (t := true) (.take rfl rfl) nofun
  have again := reachable_move first (t := true)
    (.acquire (n := 200) rfl (by decide) (by decide)) nofun
  have second := reachable_move again (t := true) (.take rfl rfl) nofun
  have other := reachable_move second (t := false)
    (.acquire (n := 4096) rfl (by decide) (by decide)) nofun
  have filled := reachable_move other (t := false) (.refill (n := 4096) rfl (some 8)) (by
    rintro batch ⟨⟩
    refine ⟨List.nodup_singleton 8, fun blk member => ?_⟩
    obtain rfl := List.mem_singleton.mp member
    exact ⟨by decide, by decide⟩)
  have consumed := reachable_move filled (t := false) (.consume rfl rfl) nofun
  have third := reachable_move consumed (t := false) (.take rfl rfl) nofun
  exact ⟨_, third, by decide, by decide, by decide, live_subranges third⟩

/-- The next call has given the block up, and `__consume_` still points to it. -/
theorem consume_given_up : ¬ ∀ s : State Unit, (system Unit).Reachable s → ∀ t blk,
    (s.source t).consume = some blk → s.useCount blk = s.liveOf blk + 1 := by
  intro every
  obtain ⟨s, reachable, live, idle, used, source⟩ := acquired_reachable
  have called := reachable_move reachable (.acquire (n := 1) idle (by decide) (by decide)) nofun
  have pc : (s.go () ((s.source ()).enter 1)).pc () = .drop 1 := by
    rw [source]
    rfl
  have owned : (s.source ()).consume = some 7 := congrArg Source.consume source
  have shared : s.useCount 7 ≠ 1 := by
    rw [used]
    decide
  have dropped := reachable_move called (.drop pc owned shared) nofun
  have counts : Function.update s.useCount 7 (s.useCount 7 + -1) 7 = s.liveOf 7 + 1 :=
    every _ dropped () 7 owned
  have once : s.liveOf 7 = 1 := by
    unfold State.liveOf
    rw [live]
    rfl
  rw [Function.update_self, used, once] at counts
  cases counts

end Sound

end NgrCore.LocalSource
