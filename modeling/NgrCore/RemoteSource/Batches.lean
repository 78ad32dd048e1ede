import Mathlib.Algebra.BigOperators.Group.Finset.Basic
import Mathlib.Algebra.BigOperators.Group.Finset.Piecewise
import Mathlib.Algebra.Order.BigOperators.Group.Finset
import NgrCore.RemoteSource.Bound

/-!
Owns the batches of the ring: what an entry holds while it is filled, available and
popped. An entry's counter counts its blocks and the places reserved in it; the call
that reserves the last place publishes the entry.
-/

namespace NgrCore.RemoteSource

open NgrCore.Library

/-! ### The life of an entry -/

/-- What a call has to do with an entry: the places it has reserved and not linked yet,
whether it is the one to publish the entry, and, if it pops it, the blocks it has
detached. -/
structure Role where
  pending : Nat := 0
  publishes : Bool := false
  pops : Option (Option (List Addr)) := none
deriving DecidableEq

section Entry

variable {Thread : Type} {entry : Entry} {role : Thread → Role} {t : Thread} {available : Prop}

structure Full (entry : Entry) (role : Thread → Role) : Prop where
  counter : entry.n = T
  batch : entry.blocks.length = T
  alone : ∀ t, role t = {}

/-- One call pops the entry. -/
structure Popping (entry : Entry) (role : Thread → Role) (t : Thread) : Prop where
  counter : entry.n = T
  alone : ∀ u, u ≠ t → role u = {}
  batch : (role t = { pops := some none } ∧ entry.blocks.length = T) ∨
    ∃ taken : List Addr, role t = { pops := some (some taken) } ∧ taken.length = T ∧
      entry.blocks = []

section Pop

variable [DecidableEq Thread]

/-- A call advances the tail past the entry. -/
theorem Full.advance (full : Full entry role) (t : Thread) :
    Popping entry (Function.update role t { pops := some none }) t :=
  ⟨full.counter, fun u apart => by rw [Function.update_of_ne apart]; exact full.alone u,
    .inl ⟨Function.update_self .., full.batch⟩⟩

theorem Popping.detach (popping : Popping entry role t) (known : role t = { pops := some none }) :
    entry.blocks.length = T ∧
      Popping { entry with blocks := [] }
        (Function.update role t { pops := some (some entry.blocks.reverse) }) t := by
  have batch : entry.blocks.length = T := by
    rcases popping.batch with ⟨_, batch⟩ | ⟨taken, pops, _⟩
    · exact batch
    · rw [known] at pops
      cases pops
  refine ⟨batch, popping.counter, ?_, ?_⟩
  · intro u apart
    rw [Function.update_of_ne apart]
    exact popping.alone u apart
  · exact .inr ⟨_, Function.update_self .., by rw [List.length_reverse, batch], rfl⟩

end Pop

variable [Fintype Thread]

/-- The entry is being filled. -/
structure Filling (entry : Entry) (role : Thread → Role) : Prop where
  calm : ∀ t, (role t).pops = none
  counter : entry.blocks.length + ∑ t, (role t).pending = entry.n
  publisher : (entry.n = T ∧ ∃ t, (role t).publishes = true ∧
    ∀ u, u ≠ t → (role u).publishes = false) ∨
    (entry.n < T ∧ ∀ t, (role t).publishes = false)

/-- The phases of an entry. -/
inductive Phase (entry : Entry) (role : Thread → Role) (available : Prop) : Prop
  | full (here : available) (full : Full entry role)
  | popping (gone : ¬available) (t : Thread) (popping : Popping entry role t)
  | filling (gone : ¬available) (filling : Filling entry role)

theorem Phase.le (phase : Phase entry role available) : entry.n ≤ T := by
  cases phase with
  | full _ full => exact full.counter.le
  | popping _ _ popping => exact popping.counter.le
  | filling _ filling =>
      rcases filling.publisher with ⟨counter, _⟩ | ⟨counter, _⟩
      · exact counter.le
      · exact counter.le

/-- Only an entry that is being filled has a counter below the limit. -/
theorem Phase.filling_of_lt (phase : Phase entry role available) (below : entry.n < T) :
    ¬available ∧ Filling entry role := by
  cases phase with
  | full _ full => exact absurd full.counter (by omega)
  | popping _ _ popping => exact absurd popping.counter (by omega)
  | filling gone filling => exact ⟨gone, filling⟩

variable [DecidableEq Thread]

theorem sum_update (role : Thread → Role) (t : Thread) (next : Role) :
    ∑ u, (Function.update role t next u).pending + (role t).pending =
      ∑ u, (role u).pending + next.pending := by
  have others : ∑ u ∈ Finset.univ.erase t, (Function.update role t next u).pending =
      ∑ u ∈ Finset.univ.erase t, (role u).pending := by
    apply Finset.sum_congr rfl
    intro u member
    rw [Function.update_of_ne (Finset.ne_of_mem_erase member)]
  rw [← Finset.add_sum_erase _ _ (Finset.mem_univ t), others,
    ← Finset.add_sum_erase Finset.univ (fun u => (role u).pending) (Finset.mem_univ t),
    Function.update_self]
  omega

/-- A call that reserves or publishes does so in an entry that is being filled. -/
theorem Phase.filling_of_role (phase : Phase entry role available) {pending : Nat}
    {publishes : Bool} (known : role t = { pending := pending, publishes := publishes })
    (busy : 0 < pending ∨ publishes = true) : ¬available ∧ Filling entry role := by
  have some : role t ≠ {} := by
    rw [known]
    rintro equal
    cases equal
    simp at busy
  cases phase with
  | full _ full => exact absurd (full.alone t) some
  | popping _ u popping =>
      exfalso
      by_cases same : t = u
      · subst same
        rcases popping.batch with ⟨pops, _⟩ | ⟨taken, pops, _⟩
        · rw [known] at pops
          cases pops
        · rw [known] at pops
          cases pops
      · exact some (popping.alone t same)
  | filling gone filling => exact ⟨gone, filling⟩

theorem Filling.reserve (filling : Filling entry role) (idle : role t = {}) {places : Nat}
    (below : entry.n < T) (room : entry.n + places ≤ T) :
    Filling { entry with n := entry.n + places } (Function.update role t
      { pending := places, publishes := decide (entry.n + places = T) }) := by
  have total := sum_update role t { pending := places, publishes := decide (entry.n + places = T) }
  have none : ∀ u, (role u).publishes = false := by
    rcases filling.publisher with ⟨counter, _⟩ | ⟨_, none⟩
    · omega
    · exact none
  rw [idle] at total
  refine ⟨?_, ?_, ?_⟩
  · intro u
    rw [Function.update_apply]
    split
    · rfl
    · exact filling.calm u
  · have counter := filling.counter
    simp only at total ⊢
    omega
  · by_cases last : entry.n + places = T
    · refine .inl ⟨last, t, by simp [last], ?_⟩
      intro u apart
      rw [Function.update_of_ne apart]
      exact none u
    · refine .inr ⟨by simp only; omega, ?_⟩
      intro u
      rw [Function.update_apply]
      split
      · simp [last]
      · exact none u

theorem Filling.link (filling : Filling entry role) (blocks : List Addr) {publishes : Bool}
    (known : role t = { pending := blocks.length, publishes := publishes }) :
    Filling { entry with blocks := blocks ++ entry.blocks }
      (Function.update role t { publishes := publishes }) := by
  have total := sum_update role t { publishes := publishes }
  rw [known] at total
  have kept : ∀ u, (Function.update role t { publishes := publishes } u).publishes =
      (role u).publishes := by
    intro u
    rw [Function.update_apply]
    split
    · rename_i same
      rw [same, known]
    · rfl
  refine ⟨?_, ?_, ?_⟩
  · intro u
    rw [Function.update_apply]
    split
    · rfl
    · exact filling.calm u
  · have counter := filling.counter
    simp only [List.length_append] at total ⊢
    omega
  · simp only [kept]
    exact filling.publisher

theorem Filling.publish (filling : Filling entry role) (known : role t = { publishes := true })
    (linked : ∀ u, u ≠ t → (role u).pending = 0) :
    Full entry (Function.update role t {}) := by
  have none : ∑ u, (role u).pending = 0 := by
    apply Finset.sum_eq_zero
    intro u _
    by_cases same : u = t
    · rw [same, known]
    · exact linked u same
  have counter := filling.counter
  rcases filling.publisher with ⟨full, u, _, unique⟩ | ⟨_, nobody⟩
  · have same : u = t := by
      by_contra apart
      have silent := unique t (Ne.symm apart)
      rw [known] at silent
      cases silent
    subst same
    refine ⟨full, by omega, ?_⟩
    intro v
    rw [Function.update_apply]
    split
    · rfl
    · rename_i apart
      have pending := linked v apart
      have publishes := unique v apart
      have pops := filling.calm v
      cases known' : role v
      simp_all
  · have silent := nobody t
    rw [known] at silent
    cases silent

/-- A call that pops an entry is the only one that has to do with it. -/
theorem Phase.popping_of_role (phase : Phase entry role available) {pops : Option (List Addr)}
    (known : role t = { pops := some pops }) : ¬available ∧ Popping entry role t := by
  cases phase with
  | full _ full =>
      have none := full.alone t
      rw [known] at none
      cases none
  | popping gone u popping =>
      by_cases same : t = u
      · exact ⟨gone, same ▸ popping⟩
      · have none := popping.alone t same
        rw [known] at none
        cases none
  | filling _ filling =>
      have calm := filling.calm t
      rw [known] at calm
      cases calm

theorem Popping.reset {taken : List Addr} (popping : Popping entry role t)
    (known : role t = { pops := some (some taken) }) :
    taken.length = T ∧ Filling { entry with n := 0 } (Function.update role t {}) := by
  have alone : ∀ u, Function.update role t {} u = {} := by
    intro u
    rw [Function.update_apply]
    split
    · rfl
    · exact popping.alone u ‹_›
  rcases popping.batch with ⟨pops, _⟩ | ⟨detached, pops, length, empty⟩
  · rw [known] at pops
    cases pops
  · rw [known] at pops
    cases pops
    refine ⟨length, ?_, ?_, ?_⟩
    · intro u
      rw [alone]
    · simp [alone, empty]
    · exact .inr ⟨show 0 < T by decide, fun u => by rw [alone]⟩

end Entry

/-! ### The calls -/

/-- A role in one entry. -/
def Role.within (role : Role) (e i : Nat) : Role := if i = e then role else {}

/-- What a call has to do with an entry. -/
def Call.role : Call → Nat → Role
  | .push _ (.front e n) => Role.within { pending := 1, publishes := decide (n + 1 = T) } e
  | .push _ (.link e n _) => Role.within { pending := 1, publishes := decide (n + 1 = T) } e
  | .push _ (.publish e) => Role.within { publishes := true } e
  | .prepend _ _ (.front e n) => Role.within { pending := T - n, publishes := true } e
  | .prepend _ _ (.link e n _) => Role.within { pending := T - n, publishes := true } e
  | .prepend _ _ (.publish e _) => Role.within { publishes := true } e
  | .tryPop (.take e) => Role.within { pops := some none } e
  | .tryPop (.detach e _) => Role.within { pops := some none } e
  | .tryPop (.reset e taken) => Role.within { pops := some (some taken) } e
  | _ => fun _ => {}

/-- The counter that a call has replaced was below the limit, and a prepending call has
the blocks for the places it has reserved. -/
def Call.Sound : Call → Prop
  | .push _ (.front _ n) => n < T
  | .push _ (.link _ n _) => n < T
  | .prepend ptr k (.front _ n) => n < T ∧ k + (T - n) ≤ ptr.length
  | .prepend ptr k (.link _ n _) => n < T ∧ k + (T - n) ≤ ptr.length
  | _ => True

/-- The entry of a call that is about to publish. -/
def Call.publishing : Call → Option Nat
  | .push _ (.publish e) => some e
  | .prepend _ _ (.publish e _) => some e
  | _ => none

variable {Thread : Type}

/-- The steps of a run in which batches are published as they should be. -/
structure Orderly (s : State Thread) (label : Thread × Action) : Prop where
  /-- No compare-exchange of `_M_push` succeeds with the expected value `__T_`. -/
  stops : StopsAtLimit s label
  /-- A prepending call has as many blocks left as it reserves places. -/
  enough : label.2 = .reserve → ∀ ptr k e n, s.call label.1 = .prepend ptr k (.reserve e n) →
    n = T ∨ k + room n ≤ ptr.length
  /-- The call that publishes does so in the entry at head, no other call stands
  between its reservation and its link there, and the head does not overflow. -/
  publishes : label.2 = .publish → ∀ e, (s.call label.1).publishing = some e →
    e = slot s.ring.head ∧ (∀ u, u ≠ label.1 → ((s.call u).role e).pending = 0) ∧
      s.ring.head.toNat + 1 < 2 ^ 32

theorem orderly_other {s : State Thread} {t : Thread} : Orderly s (t, .other) :=
  ⟨stopsAtLimit_other, fun reserves => (by cases reserves),
    fun publishes => (by cases publishes)⟩

theorem orderly_reserve {s : State Thread} {t : Thread}
    (stops : ∀ blk e n, s.call t = .push blk (.reserve e n) → n ≠ T)
    (enough : ∀ ptr k e n, s.call t = .prepend ptr k (.reserve e n) →
      n = T ∨ k + room n ≤ ptr.length) : Orderly s (t, .reserve) :=
  ⟨fun _ => stops, fun _ => enough, fun publishes => (by cases publishes)⟩

theorem orderly_publish {s : State Thread} {t : Thread}
    (publishes : ∀ e, (s.call t).publishing = some e → e = slot s.ring.head ∧
      (∀ u, u ≠ t → ((s.call u).role e).pending = 0) ∧ s.ring.head.toNat + 1 < 2 ^ 32) :
    Orderly s (t, .publish) :=
  ⟨fun reserves => (by cases reserves), fun reserves => (by cases reserves), fun _ => publishes⟩

/-- The entry belongs to a batch that is published and whose tail has not advanced. -/
def Available (ring : Ring) (e : Nat) : Prop :=
  ∃ p, ring.tail.toNat ≤ p ∧ p < ring.head.toNat ∧ p % K = e

variable [Fintype Thread]

structure Inv (s : State Thread) : Prop where
  order : s.ring.tail.toNat ≤ s.ring.head.toNat
  window : s.ring.head.toNat ≤ s.ring.tail.toNat + K
  phase : ∀ e, Phase (s.ring.entry e) (fun t => (s.call t).role e) (Available s.ring e)
  sound : ∀ t, (s.call t).Sound
  published : ∀ batch ∈ s.ring.published, batch.length = T
  popped : ∀ batch ∈ s.ring.popped, batch.length = T

section Counters

variable {ring : Ring}

theorem slot_eq (counter : BitVec 32) : slot counter = counter.toNat % K := by
  have mask : (BitVec.ofNat 32 (K - 1)).toNat = 2 ^ 6 - 1 := by decide
  rw [slot, BitVec.toNat_and, mask, Nat.and_two_pow_sub_one_eq_mod]
  rfl

theorem Ring.state_eq (ring : Ring) : ring.state = packed ring.head.toNat ring.tail.toNat := by
  have bound := ring.state.isLt
  apply BitVec.eq_of_toNat_eq
  simp only [packed, Ring.head, Ring.tail, convert, BitVec.toNat_setWidth, BitVec.toNat_ofNat,
    BitVec.toNat_ushiftRight, Nat.shiftRight_eq_div_pow]
  omega

theorem Ring.publish_counters (short : ring.head.toNat + 1 < 2 ^ 32) :
    ring.publish.head.toNat = ring.head.toNat + 1 ∧ ring.publish.tail = ring.tail := by
  have word : ring.publish.state = packed (ring.head.toNat + 1) ring.tail.toNat := by
    rw [← packed_publish, ← ring.state_eq]
    rfl
  constructor
  · rw [Ring.head, word, convert_packed, BitVec.toNat_ofNat, Nat.mod_eq_of_lt short]
  · rw [Ring.tail, word, convert_packed, Nat.div_eq_of_lt short]
    simp

theorem Ring.advance_counters (order : ring.tail.toNat < ring.head.toNat) :
    ({ ring with state := ring.state + tailStride }).head = ring.head ∧
      ({ ring with state := ring.state + tailStride }).tail.toNat = ring.tail.toNat + 1 := by
  have word : ring.state + tailStride = packed ring.head.toNat (ring.tail.toNat + 1) := by
    rw [← packed_pop, ← ring.state_eq]
  have bound := ring.head.isLt
  constructor
  · rw [Ring.head, word, convert_packed]
    simp
  · rw [Ring.tail, word, convert_packed, Nat.div_eq_of_lt bound, BitVec.toNat_ofNat]
    omega

end Counters

section Steps

variable [DecidableEq Thread] {s : State Thread} {t : Thread} {next : Ring} {call : Call} {e : Nat}

theorem Inv.update (inv : Inv s) (order : next.tail.toNat ≤ next.head.toNat)
    (window : next.head.toNat ≤ next.tail.toNat + K)
    (others : ∀ i, i ≠ e → next.entry i = s.ring.entry i)
    (roles : ∀ i, i ≠ e → call.role i = (s.call t).role i)
    (available : ∀ i, i ≠ e → (Available next i ↔ Available s.ring i))
    (phase : Phase (next.entry e)
      (Function.update (fun u => (s.call u).role e) t (call.role e)) (Available next e))
    (sound : call.Sound) (published : ∀ batch ∈ next.published, batch.length = T)
    (popped : ∀ batch ∈ next.popped, batch.length = T) :
    Inv { ring := next, call := Function.update s.call t call } := by
  have spread : ∀ i, (fun u => (Function.update s.call t call u).role i) =
      Function.update (fun u => (s.call u).role i) t (call.role i) := by
    intro i
    funext u
    simp only [Function.update_apply]
    split <;> rfl
  refine ⟨order, window, ?_, ?_, published, popped⟩
  · intro i
    simp only [spread]
    by_cases same : i = e
    · subst same
      exact phase
    · rw [others i same, roles i same, available i same, Function.update_eq_self]
      exact inv.phase i
  · intro u
    simp only [Function.update_apply]
    split
    · exact sound
    · exact inv.sound u

theorem Inv.stay (inv : Inv s) (role : call.role = (s.call t).role) (sound : call.Sound) :
    Inv { s with call := Function.update s.call t call } := by
  refine inv.update (e := 0) inv.order inv.window (fun _ _ => rfl) (fun i _ => by rw [role])
    (fun _ _ => Iff.rfl) ?_ sound inv.published inv.popped
  rw [role, Function.update_eq_self (f := fun u => (s.call u).role 0)]
  exact inv.phase 0

theorem Inv.write (inv : Inv s) {entry : Entry}
    (roles : ∀ i, i ≠ e → call.role i = (s.call t).role i)
    (gone : ¬Available s.ring e)
    (filling : Filling entry (Function.update (fun u => (s.call u).role e) t (call.role e)))
    (sound : call.Sound) :
    Inv { ring := { s.ring with entry := Function.update s.ring.entry e entry }
          call := Function.update s.call t call } := by
  refine inv.update inv.order inv.window (fun i apart => Function.update_of_ne apart _ _) roles
    (fun _ _ => Iff.rfl) ?_ sound inv.published inv.popped
  simp only [Function.update_self]
  exact .filling gone filling

theorem setN_blocks (ring : Ring) (e n i : Nat) :
    ((ring.setN e n).entry i).blocks = (ring.entry i).blocks := by
  unfold Ring.setN
  simp only [Function.update_apply]
  split
  · rename_i same
    rw [same]
  · rfl

theorem Role.within_self (role : Role) (e : Nat) : Role.within role e e = role := if_pos rfl

theorem Role.within_ne (role : Role) {e i : Nat} (apart : i ≠ e) : Role.within role e i = {} :=
  if_neg apart

theorem Inv.publish (inv : Inv s) (known : (s.call t).role = Role.within { publishes := true } e)
    (here : e = slot s.ring.head) (linked : ∀ u, u ≠ t → ((s.call u).role e).pending = 0)
    (short : s.ring.head.toNat + 1 < 2 ^ 32) (role : call.role = fun _ => {}) (sound : call.Sound) :
    Inv { ring := s.ring.publish, call := Function.update s.call t call } := by
  have mine : (s.call t).role e = { publishes := true } := by rw [known, Role.within_self]
  rcases (inv.phase e).filling_of_role mine (.inr rfl) with ⟨gone, filling⟩
  have full := filling.publish mine linked
  rcases Ring.publish_counters short with ⟨head, tail⟩
  have position : s.ring.head.toNat % K = e := by rw [here, slot_eq]
  have order := inv.order
  have window := inv.window
  have room : s.ring.head.toNat + 1 ≤ s.ring.tail.toNat + K := by
    by_contra full'
    refine gone ⟨s.ring.tail.toNat, Nat.le_refl _, ?_, ?_⟩
    · have positive : 0 < K := by decide
      omega
    · rw [← position, show s.ring.head.toNat = s.ring.tail.toNat + K by omega, Nat.add_mod_right]
  refine inv.update (e := e) ?_ ?_ (fun _ _ => rfl) ?_ ?_ ?_ sound ?_ inv.popped
  · rw [head, tail]
    omega
  · rw [head, tail]
    exact room
  · intro i apart
    rw [role, known, Role.within_ne _ apart]
  · intro i apart
    unfold Available
    rw [head, tail]
    constructor
    · rintro ⟨p, after, before, slot⟩
      refine ⟨p, after, ?_, slot⟩
      by_contra last
      have same : p = s.ring.head.toNat := by omega
      rw [same, position] at slot
      exact apart slot.symm
    · rintro ⟨p, after, before, slot⟩
      exact ⟨p, after, by omega, slot⟩
  · rw [role]
    refine .full ⟨s.ring.head.toNat, ?_, ?_, position⟩ full
    · rw [tail]
      exact order
    · rw [head]
      omega
  · intro batch member
    rcases List.mem_append.mp member with earlier | last
    · exact inv.published batch earlier
    · rw [List.mem_singleton.mp last, ← here]
      exact full.batch

theorem role_returned (batch : List Addr) : (Call.returned batch).role = fun _ => {} := rfl

theorem PushMove.inv {blk : Addr} {pc : PushPc} {action : Action} (inv : Inv s)
    (known : s.call t = .push blk pc) (orderly : Orderly s (t, action))
    (move : PushMove s.ring blk pc action next call) :
    Inv { ring := next, call := Function.update s.call t call } := by
  have sound := inv.sound t
  rw [known] at sound
  cases move with
  | @reserve e n expected =>
      subst expected
      have bounded := (inv.phase e).le
      have below : (s.ring.entry e).n < T := by
        have stops := orderly.stops rfl blk e _ known
        omega
      rcases (inv.phase e).filling_of_lt below with ⟨gone, filling⟩
      have idle : (s.call t).role e = {} := by rw [known]; rfl
      have counter : ((s.ring.entry e).n + 1) % 2 ^ 64 = (s.ring.entry e).n + 1 := by
        unfold T at below
        omega
      rw [counter]
      refine inv.write ?_ gone ?_ below
      · intro i apart
        rw [known]
        exact Role.within_ne _ apart
      · rw [Call.role, Role.within_self]
        exact filling.reserve idle below (by omega)
  | @link e n old expected =>
      have mine : (s.call t).role e = { pending := 1, publishes := decide (n + 1 = T) } := by
        rw [known, Call.role, Role.within_self]
      rcases (inv.phase e).filling_of_role mine (.inl (by omega)) with ⟨gone, filling⟩
      have linked := filling.link [blk] mine
      have counter : (n + 1) % 2 ^ 64 = n + 1 := by
        have below : n < T := sound
        unfold T at below
        omega
      rw [counter]
      by_cases last : n + 1 = T
      · rw [if_pos last]
        refine inv.write ?_ gone ?_ trivial
        · intro i apart
          rw [known, Call.role, Call.role, Role.within_ne _ apart, Role.within_ne _ apart]
        · rw [Call.role, Role.within_self]
          simpa [last] using linked
      · rw [if_neg last]
        refine inv.write ?_ gone ?_ trivial
        · intro i apart
          rw [known, role_returned, Call.role, Role.within_ne _ apart]
        · rw [role_returned]
          simpa [last] using linked
  | @publish e =>
      rcases orderly.publishes rfl e (by rw [known]; rfl) with ⟨here, linked, short⟩
      exact inv.publish (by rw [known]; rfl) here linked short rfl trivial
  | front => exact inv.stay (by rw [known]; rfl) sound
  | relink => exact inv.stay (by rw [known]; rfl) sound
  | _ => exact inv.stay (by rw [known]; rfl) trivial

theorem PrependMove.inv {ptr : List Addr} {k : Nat} {pc : PrependPc} {action : Action}
    (inv : Inv s) (known : s.call t = .prepend ptr k pc) (orderly : Orderly s (t, action))
    (move : PrependMove s.ring ptr k pc action next call) :
    Inv { ring := next, call := Function.update s.call t call } := by
  have sound := inv.sound t
  rw [known] at sound
  cases move with
  | @reserve e n expected =>
      subst expected
      have bounded := (inv.phase e).le
      by_cases full : (s.ring.entry e).n = T
      · have same : s.ring.setN e T = s.ring := by
          rw [← full]
          unfold Ring.setN
          rw [Function.update_eq_self]
        rw [same, if_pos full]
        exact inv.stay (by rw [known]; rfl) trivial
      · have below : (s.ring.entry e).n < T := by omega
        have difference := room_eq bounded
        have enough : k + room (s.ring.entry e).n ≤ ptr.length := by
          rcases orderly.enough rfl ptr k e _ known with full' | enough
          · exact absurd full' full
          · exact enough
        rcases (inv.phase e).filling_of_lt below with ⟨gone, filling⟩
        have idle : (s.call t).role e = {} := by rw [known]; rfl
        have counter : T = (s.ring.entry e).n + (T - (s.ring.entry e).n) := by omega
        have some : 0 < room (s.ring.entry e).n := by omega
        rw [if_neg full, if_pos ⟨some, enough⟩]
        rw [difference] at enough
        have reserved := filling.reserve idle below (show _ + (T - (s.ring.entry e).n) ≤ T by omega)
        rw [← counter] at reserved
        refine inv.write ?_ gone ?_ ⟨below, enough⟩
        · intro i apart
          rw [known]
          exact Role.within_ne _ apart
        · rw [Call.role, Role.within_self]
          simpa using reserved
  | @link e n old expected =>
      have below : n < T := sound.1
      have enough : k + (T - n) ≤ ptr.length := sound.2
      have length : ((ptr.drop k).take (room n)).length = T - n := by
        rw [List.length_take, List.length_drop, room_eq (by omega)]
        omega
      have mine : (s.call t).role e =
          { pending := ((ptr.drop k).take (room n)).length, publishes := true } := by
        rw [known, Call.role, Role.within_self, length]
      rcases (inv.phase e).filling_of_role mine (.inr rfl) with ⟨gone, filling⟩
      refine inv.write ?_ gone ?_ trivial
      · intro i apart
        rw [known, Call.role, Call.role, Role.within_ne _ apart, Role.within_ne _ apart]
      · rw [Call.role, Role.within_self]
        exact filling.link _ mine
  | @publish e n =>
      rcases orderly.publishes rfl e (by rw [known]; rfl) with ⟨here, linked, short⟩
      refine inv.publish (by rw [known]; rfl) here linked short ?_ ?_
      · unfold Call.prependFrom
        split <;> rfl
      · unfold Call.prependFrom
        split <;> trivial
  | @retry e n =>
      refine inv.stay ?_ ?_
      · rw [known]
        split <;> rfl
      · split <;> trivial
  | front => exact inv.stay (by rw [known]; rfl) sound
  | relink => exact inv.stay (by rw [known]; rfl) sound
  | _ => exact inv.stay (by rw [known]; rfl) trivial

theorem PopMove.inv {pc : PopPc} {action : Action} (inv : Inv s) (known : s.call t = .tryPop pc)
    (move : PopMove s.ring pc action next call) :
    Inv { ring := next, call := Function.update s.call t call } := by
  cases move with
  | @advance u available expected =>
      subst expected
      have order := inv.order
      have window := inv.window
      have apart : s.ring.head.toNat ≠ s.ring.tail.toNat := fun same =>
        available (BitVec.eq_of_toNat_eq same)
      have before : s.ring.tail.toNat < s.ring.head.toNat := by omega
      have position : s.ring.tail.toNat % K = slot s.ring.tail := (slot_eq _).symm
      have here : Available s.ring (slot s.ring.tail) := ⟨_, Nat.le_refl _, before, position⟩
      have full : Full (s.ring.entry (slot s.ring.tail))
          fun u => (s.call u).role (slot s.ring.tail) := by
        cases inv.phase (slot s.ring.tail) with
        | full _ full => exact full
        | popping gone => exact absurd here gone
        | filling gone => exact absurd here gone
      rcases Ring.advance_counters before with ⟨head, tail⟩
      refine inv.update (e := slot s.ring.tail) ?_ ?_ (fun _ _ => rfl) ?_ ?_ ?_ trivial
        inv.published inv.popped
      · rw [head, tail]
        omega
      · rw [head, tail]
        omega
      · intro i apart
        rw [known]
        exact Role.within_ne _ apart
      · intro i apart
        unfold Available
        rw [head, tail]
        constructor
        · rintro ⟨p, after, before, slot⟩
          exact ⟨p, by omega, before, slot⟩
        · rintro ⟨p, after, before, slot⟩
          refine ⟨p, ?_, before, slot⟩
          by_contra first
          have same : p = s.ring.tail.toNat := by omega
          rw [same, position] at slot
          exact apart slot.symm
      · refine .popping ?_ t ?_
        · rintro ⟨p, after, before, slot⟩
          rw [head] at before
          rw [tail] at after
          have same : p % K = s.ring.tail.toNat % K := slot.trans position.symm
          have size : K = 64 := rfl
          rw [size] at same window
          omega
        · change Popping _ (Function.update _ t
            (Role.within _ (slot s.ring.tail) (slot s.ring.tail))) t
          rw [Role.within_self]
          exact full.advance t
  | @detach e old expected =>
      have mine : (s.call t).role e = { pops := some none } := by
        rw [known, Call.role, Role.within_self]
      rcases (inv.phase e).popping_of_role mine with ⟨gone, popping⟩
      refine inv.update (e := e) inv.order inv.window
        (fun i apart => Function.update_of_ne apart _ _) ?_ (fun _ _ => Iff.rfl) ?_ trivial
        inv.published inv.popped
      · intro i apart
        rw [known, Call.role, Call.role, Role.within_ne _ apart, Role.within_ne _ apart]
      · rw [Call.role, Role.within_self]
        simp only [Ring.setBlocks, Function.update_self]
        exact .popping gone t (popping.detach mine).2
  | @reset e taken =>
      have mine : (s.call t).role e = { pops := some (some taken) } := by
        rw [known, Call.role, Role.within_self]
      rcases (inv.phase e).popping_of_role mine with ⟨gone, popping⟩
      rcases popping.reset mine with ⟨length, filling⟩
      refine inv.update (e := e) inv.order inv.window
        (fun i apart => Function.update_of_ne apart _ _) ?_ (fun _ _ => Iff.rfl) ?_ trivial
        inv.published ?_
      · intro i apart
        rw [known, role_returned, Call.role, Role.within_ne _ apart]
      · rw [role_returned]
        simp only [Ring.setN, Function.update_self]
        exact .filling gone filling
      · intro batch member
        rcases List.mem_append.mp member with earlier | last
        · exact inv.popped batch earlier
        · rw [List.mem_singleton.mp last]
          exact length
  | _ => exact inv.stay (by rw [known]; rfl) trivial

end Steps

/-! ### Runs -/

section Runs

variable [DecidableEq Thread] {s next : State Thread} {label : Thread × Action}

theorem Inv.step (inv : Inv s) (orderly : Orderly s label) (step : Step s label next) :
    Inv next := by
  cases step with
  | @begin t batch call idle begins =>
      refine inv.stay ?_ ?_
      · rw [idle]
        cases begins <;> rfl
      · cases begins <;> trivial
  | @move t action ring call move =>
      cases known : s.call t with
      | push blk pc =>
          rw [known] at move
          cases move with
          | push move => exact move.inv inv known orderly
      | prepend ptr k pc =>
          rw [known] at move
          cases move with
          | prepend move => exact move.inv inv known orderly
      | tryPop pc =>
          rw [known] at move
          cases move with
          | tryPop move => exact move.inv inv known
      | returned batch =>
          rw [known] at move
          cases move

omit [DecidableEq Thread] in
theorem inv_start : Inv ({} : State Thread) := by
  refine ⟨show ({} : Ring).tail.toNat ≤ ({} : Ring).head.toNat by decide,
    show ({} : Ring).head.toNat ≤ ({} : Ring).tail.toNat + K by decide, ?_, fun _ => trivial,
    nofun, nofun⟩
  intro e
  refine .filling ?_ ⟨fun _ => rfl, ?_, .inr ⟨show 0 < T by decide, fun _ => rfl⟩⟩
  · rintro ⟨p, _, before, _⟩
    exact absurd before (Nat.not_lt_zero p)
  · simp [Call.role]

theorem inv_of_orderly (reachable : ((system Thread).restrict Orderly).Reachable s) : Inv s := by
  apply reachable.invariant Inv
  · rintro _ rfl
    exact inv_start
  · intro state label next _ inv step
    exact inv.step step.1 step.2

end Runs

/-- No call is in progress. -/
def State.Quiet (s : State Thread) : Prop := ∀ t, ∃ batch, s.call t = .returned batch

/-- Every publication and every pop is of exactly `__T_` blocks; and whenever no call is
in progress, every entry from tail to head is full, and the entry at head, unless the
ring is full, counts its blocks and has room. -/
structure Exact (s : State Thread) : Prop where
  published : ∀ batch ∈ s.ring.published, batch.length = T
  popped : ∀ batch ∈ s.ring.popped, batch.length = T
  full : s.Quiet → ∀ p, s.ring.tail.toNat ≤ p → p < s.ring.head.toNat →
    (s.ring.entry (p % K)).n = T ∧ (s.ring.entry (p % K)).blocks.length = T
  atHead : s.Quiet → s.ring.head.toNat - s.ring.tail.toNat < K →
    (s.ring.entry (slot s.ring.head)).n < T ∧
      (s.ring.entry (slot s.ring.head)).n = (s.ring.entry (slot s.ring.head)).blocks.length

omit [Fintype Thread] in
theorem State.Quiet.role {s : State Thread} (quiet : s.Quiet) (t : Thread) (e : Nat) :
    (s.call t).role e = {} := by
  rcases quiet t with ⟨batch, known⟩
  rw [known]
  rfl

/-- With no call in progress, an entry that is not available counts its blocks and has
room. -/
theorem Inv.filling_of_quiet {s : State Thread} (inv : Inv s) (quiet : s.Quiet) {e : Nat}
    (gone : ¬Available s.ring e) :
    (s.ring.entry e).n < T ∧ (s.ring.entry e).n = (s.ring.entry e).blocks.length := by
  cases inv.phase e with
  | full here => exact absurd here gone
  | popping _ t popping =>
      rcases popping.batch with ⟨pops, _⟩ | ⟨taken, pops, _⟩
      · rw [quiet.role] at pops
        cases pops
      · rw [quiet.role] at pops
        cases pops
  | filling _ filling =>
      have counter := filling.counter
      simp only [quiet.role, Finset.sum_const_zero] at counter
      rcases filling.publisher with ⟨_, t, publishes, _⟩ | ⟨below, _⟩
      · rw [quiet.role] at publishes
        cases publishes
      · exact ⟨below, by omega⟩

theorem Inv.exact {s : State Thread} (inv : Inv s) : Exact s := by
  refine ⟨inv.published, inv.popped, ?_, ?_⟩
  · intro quiet p after before
    cases inv.phase (p % K) with
    | full _ full => exact ⟨full.counter, full.batch⟩
    | popping gone => exact absurd ⟨p, after, before, rfl⟩ gone
    | filling gone => exact absurd ⟨p, after, before, rfl⟩ gone
  · intro quiet outstanding
    refine inv.filling_of_quiet quiet ?_
    rintro ⟨p, after, before, position⟩
    rw [slot_eq] at position
    have size : K = 64 := rfl
    rw [size] at position outstanding
    omega

theorem exact_of_orderly [DecidableEq Thread] {s : State Thread}
    (reachable : ((system Thread).restrict Orderly).Reachable s) : Exact s :=
  (inv_of_orderly reachable).exact

/-- A pusher stops between its reservation and its link; a prepending call reserves the
other places, links 15 blocks and publishes the entry. -/
theorem published_before_link : ¬ ∀ s, (system Bool).Reachable s → Exact s := by
  intro every
  have start : (system Bool).Reachable {} := .init rfl
  have begun := start.step (.begin (t := true) rfl
    (.push (show State.Free _ 100 from ⟨fun _ => nofun, fun _ => nofun⟩)))
  have loaded := begun.step (.move (t := true) (.push .load))
  have seen := loaded.step (.move (t := true) (.push (.read (by decide))))
  have paused := seen.step (.move (t := true) (.push (.reserve rfl)))
  have mapped := paused.step (.begin (t := false) rfl
    (.prepend (show (List.range 64).length = M from rfl) List.nodup_range (by
      intro blk member
      have small := List.mem_range.mp member
      refine ⟨?_, ?_⟩
      · intro e here
        rw [setN_blocks] at here
        cases here
      · rintro (_ | _)
        · exact nofun
        · intro here
          have same : blk = 100 := List.mem_singleton.mp here
          exact absurd (same ▸ small) (by decide))))
  have prepending := mapped.step (.move (t := false) (.prepend .load))
  have read := prepending.step (.move (t := false) (.prepend (.read (by decide))))
  have taken := read.step (.move (t := false) (.prepend (.reserve rfl)))
  have front := taken.step (.move (t := false) (.prepend .front))
  have linked := front.step (.move (t := false) (.prepend (.link rfl)))
  have published := linked.step (.move (t := false) (.prepend .publish))
  have batches := (every _ published).published
  revert batches
  decide

/-- The blocks of a mapping are prepended and the first batch is popped. -/
theorem exact_prepend : ∃ s : State Bool,
    s.ring.popped = [(List.range 16).reverse] ∧ Exact s := by
  have start : ((system Bool).restrict Orderly).Reachable {} := .init rfl
  have begun := start.step ⟨orderly_other, .begin (t := false) rfl
    (.prepend (show (List.range 64).length = M from rfl) List.nodup_range
      fun _ _ => ⟨fun _ => nofun, fun _ => nofun⟩)⟩
  have loaded := begun.step ⟨orderly_other, .move (t := false) (.prepend .load)⟩
  have read := loaded.step ⟨orderly_other, .move (t := false) (.prepend (.read (by decide)))⟩
  have taken := read.step ⟨orderly_reserve (fun _ _ _ known => by cases known) (by
    intro ptr k e n known
    cases known
    exact .inr (by decide)), .move (t := false) (.prepend (.reserve rfl))⟩
  have front := taken.step ⟨orderly_other, .move (t := false) (.prepend .front)⟩
  have linked := front.step ⟨orderly_other, .move (t := false) (.prepend (.link rfl))⟩
  have published := linked.step ⟨orderly_publish (by
    intro e known
    cases known
    refine ⟨by decide, ?_, by decide⟩
    rintro (_ | _) apart
    · exact absurd rfl apart
    · rfl), .move (t := false) (.prepend .publish)⟩
  have popping := published.step ⟨orderly_other, .begin (t := true) rfl .tryPop⟩
  have state := popping.step ⟨orderly_other, .move (t := true) (.tryPop .load)⟩
  have advanced := state.step ⟨orderly_other, .move (t := true)
    (.tryPop (.advance (by decide) rfl))⟩
  have head := advanced.step ⟨orderly_other, .move (t := true) (.tryPop .take)⟩
  have detached := head.step ⟨orderly_other, .move (t := true) (.tryPop (.detach rfl))⟩
  have reset := detached.step ⟨orderly_other, .move (t := true) (.tryPop .reset)⟩
  exact ⟨_, by decide, exact_of_orderly reset⟩

end NgrCore.RemoteSource
