import Mathlib.Data.BitVec
import NgrCore.SegmentArray
import NgrCore.Library.Transition

/-!
Owns `__atomic_segment_array` under any number of threads that push and fold. Every
atomic operation is one step.

Proves that a fold sees the values of the first indices, in order, as long as the 32-bit
index of a push does not wrap.
-/

namespace NgrCore.SegmentArray

open NgrCore.Library

/-- `__locate` on the 32-bit index. When `__w + 1U` wraps to 0 the builtin has no
result. -/
def locateWord (w : BitVec 32) : Option (Nat × Nat) :=
  if w + 1 = 0 then none
  else
    let n := Nat.log2 (w + 1).toNat
    some (n, (w - ((1#32 <<< n) - 1)).toNat)

/-- Where a call of `_M_push_back` or `_M_fold_inplace` stands; what a fold has passed to
its function is `visited`. `undefined` has no index, `nullStore` stores through a null
pointer because there was no memory for a segment, and `nullLoad` loads through one. -/
inductive Call (α : Type)
  | idle
  | segment (v : α) (prev : BitVec 32) (n m : Nat)
  | allocate (v : α) (prev : BitVec 32) (n m : Nat)
  | install (v : α) (prev : BitVec 32) (n m : Nat) (tmp : Option (Nat → α))
  | store (v : α) (prev : BitVec 32) (n m : Nat)
  | wait (prev : BitVec 32)
  | publish (prev : BitVec 32)
  | returned (prev : BitVec 32)
  | undefined
  | nullStore
  | loadCount
  | head (r w n : Nat) (visited : List α)
  | visit (r w n m : Nat) (visited : List α)
  | folded (r : Nat) (visited : List α)
  | nullLoad

/-- `__seg_`, `__count_` and `__prev_`, and the calls; for the proofs only, the values in
the order in which their pushes took an index, and the indices that pushes returned. -/
structure State (α Thread : Type) where
  seg : Nat → Option (Nat → α) := fun _ => none
  count : BitVec 32 := 0
  prev : BitVec 32 := 0
  call : Thread → Call α := fun _ => .idle
  values : List α := []
  returned : List Nat := []

/-- The call is over. -/
def Call.free {α : Type} : Call α → Bool
  | .idle | .returned _ | .folded _ _ => true
  | _ => false

/-- The position after the index is known. -/
def Call.located {α : Type} (v : α) (prev : BitVec 32) : Option (Nat × Nat) → Call α
  | some (n, m) => .segment v prev n m
  | none => .undefined

section Steps

variable {α Thread : Type} [Inhabited α] [DecidableEq Thread] (max : Nat)

/-- The call of a thread moves on. -/
def State.goto (s : State α Thread) (t : Thread) (call : Call α) : State α Thread :=
  { s with call := Function.update s.call t call }

/-- What a step does, as far as conditions on runs speak of it. -/
inductive Action
  | fetch
  | other
deriving Repr, DecidableEq

/-- No more than `__max_` pushes begin. The allocation of a segment may fail. -/
inductive Step (s : State α Thread) : Action → State α Thread → Prop
  | fetch {t : Thread} {v : α} (free : (s.call t).free = true) (fits : s.values.length < max) :
      Step s .fetch { s.goto t (.located v s.prev (locateWord s.prev)) with
        prev := s.prev + 1
        values := s.values ++ [v] }
  | present {t : Thread} {v : α} {prev : BitVec 32} {n m : Nat}
      (pc : s.call t = .segment v prev n m) (present : s.seg n ≠ none) :
      Step s .other (s.goto t (.store v prev n m))
  | absent {t : Thread} {v : α} {prev : BitVec 32} {n m : Nat}
      (pc : s.call t = .segment v prev n m) (absent : s.seg n = none) :
      Step s .other (s.goto t (.allocate v prev n m))
  | allocate {t : Thread} {v : α} {prev : BitVec 32} {n m : Nat}
      (pc : s.call t = .allocate v prev n m) :
      Step s .other (s.goto t (.install v prev n m (some fun _ => default)))
  | noMemory {t : Thread} {v : α} {prev : BitVec 32} {n m : Nat}
      (pc : s.call t = .allocate v prev n m) :
      Step s .other (s.goto t (.install v prev n m none))
  | install {t : Thread} {v : α} {prev : BitVec 32} {n m : Nat} {tmp : Nat → α}
      (pc : s.call t = .install v prev n m (some tmp)) (absent : s.seg n = none) :
      Step s .other { s.goto t (.store v prev n m) with
        seg := Function.update s.seg n (some tmp) }
  | installNull {t : Thread} {v : α} {prev : BitVec 32} {n m : Nat}
      (pc : s.call t = .install v prev n m none) (absent : s.seg n = none) :
      Step s .other (s.goto t .nullStore)
  | lost {t : Thread} {v : α} {prev : BitVec 32} {n m : Nat} {tmp : Option (Nat → α)}
      (pc : s.call t = .install v prev n m tmp) (present : s.seg n ≠ none) :
      Step s .other (s.goto t (.store v prev n m))
  | store {t : Thread} {v : α} {prev : BitVec 32} {n m : Nat} {cells : Nat → α}
      (pc : s.call t = .store v prev n m) (here : s.seg n = some cells) :
      Step s .other { s.goto t (.wait prev) with
        seg := Function.update s.seg n (some (Function.update cells m v)) }
  | spin {t : Thread} {prev : BitVec 32} (pc : s.call t = .wait prev)
      (other : s.count ≠ prev) : Step s .other s
  | turn {t : Thread} {prev : BitVec 32} (pc : s.call t = .wait prev)
      (turn : s.count = prev) : Step s .other (s.goto t (.publish prev))
  | publish {t : Thread} {prev : BitVec 32} (pc : s.call t = .publish prev) :
      Step s .other { s.goto t (.returned prev) with
        count := prev + 1
        returned := s.returned ++ [prev.toNat] }
  | fold {t : Thread} (free : (s.call t).free = true) : Step s .other (s.goto t .loadCount)
  | loadCount {t : Thread} (pc : s.call t = .loadCount) :
      Step s .other (s.goto t (.head s.count.toNat 0 0 []))
  | enter {t : Thread} {r w n : Nat} {visited : List α} (pc : s.call t = .head r w n visited)
      (more : w < r) (present : s.seg n ≠ none) :
      Step s .other (s.goto t (.visit r w n 0 visited))
  | enterNull {t : Thread} {r w n : Nat} {visited : List α}
      (pc : s.call t = .head r w n visited) (more : w < r) (absent : s.seg n = none) :
      Step s .other (s.goto t .nullLoad)
  | visit {t : Thread} {r w n m : Nat} {visited : List α} {cells : Nat → α}
      (pc : s.call t = .visit r w n m visited) (inside : m < min (2 ^ n) (r - w))
      (here : s.seg n = some cells) :
      Step s .other (s.goto t (.visit r w n (m + 1) (visited ++ [cells m])))
  | next {t : Thread} {r w n m : Nat} {visited : List α}
      (pc : s.call t = .visit r w n m visited) (ended : m = min (2 ^ n) (r - w)) :
      Step s .other (s.goto t (.head r (w + m) (n + 1) visited))
  | done {t : Thread} {r w n : Nat} {visited : List α} (pc : s.call t = .head r w n visited)
      (ended : r ≤ w) : Step s .other (s.goto t (.folded r visited))

/-- Any number of threads, interleaved, from an empty array. -/
def system (α Thread : Type) [Inhabited α] [DecidableEq Thread] (max : Nat) :
    System (State α Thread) Action where
  Init s := s = {}
  Step := Step max

/-- The push takes an index that `__locate` is defined on. -/
def Indexed (s : State α Thread) (action : Action) : Prop :=
  action = .fetch → s.prev + 1 ≠ 0

end Steps

section Definitions

variable {α Thread : Type}

/-- The segment and the position that a call is about to access. -/
def Call.place : Call α → Option (Nat × Nat)
  | .segment _ _ n m | .allocate _ _ n m | .install _ _ n m _ | .store _ _ n m => some (n, m)
  | .visit r w n m _ => if m < min (2 ^ n) (r - w) then some (n, m) else none
  | .head r w n _ => if w < r then some (n, 0) else none
  | _ => none

/-- `__r`, which a fold has loaded. -/
def Call.bound : Call α → Option Nat
  | .head r _ _ _ | .visit r _ _ _ _ | .folded r _ => some r
  | _ => none

/-- The call is about to load `__count_` for a fold. -/
def Call.loads : Call α → Bool
  | .loadCount => true
  | _ => false

/-- What `__count_` was when the call of a thread went on from its load; a call that begins
has loaded nothing. -/
def note (loaded : Thread → Option Nat) (s : State α Thread) (_ : Action)
    (after : State α Thread) (t : Thread) : Option Nat :=
  if (s.call t).free && !(after.call t).free then none
  else if (s.call t).loads && !(after.call t).loads then some s.count.toNat
  else loaded t

def watched (system : System (State α Thread) Action) :
    System (State α Thread × (Thread → Option Nat)) Action :=
  system.watch (fun _ => none) note

/-- The value of an index is in its place. -/
def Stored (s : State α Thread) (k : Nat) : Prop :=
  ∃ v cells, s.values[k]? = some v ∧ s.seg (locate k).1 = some cells ∧ cells (locate k).2 = v

/-- What pushes and folds are promised. `loaded` has the count that the call of a thread has
loaded. -/
structure Snapshot [Inhabited α] [DecidableEq Thread] (max : Nat) (s : State α Thread)
    (loaded : Thread → Option Nat) : Prop where
  returned : s.returned = List.range s.returned.length
  indices : ∀ t prev, s.call t = .returned prev → prev.toNat ∈ s.returned
  places : ∀ t n m, (s.call t).place = some (n, m) → n < Nat.size max ∧ m < 2 ^ n
  defined : ∀ t, s.call t ≠ .undefined ∧ s.call t ≠ .nullLoad
  visits : ∀ t r w n m visited, s.call t = .visit r w n m visited →
    visited = s.values.take (w + m)
  folds : ∀ t r visited, s.call t = .folded r visited →
    loaded t = some r ∧ r ≤ s.count.toNat ∧ visited = s.values.take r
  stored : ∀ k < s.count.toNat, Stored s k
  grows : ∀ action next, Step max s action next →
    s.count.toNat ≤ next.count.toNat ∧ s.values <+: next.values

end Definitions

section Words

theorem locateWord_eq {w : BitVec 32} (small : w + 1 ≠ 0) :
    locateWord w = some (locate w.toNat) := by
  have bound := w.isLt
  have next : (w + 1).toNat = w.toNat + 1 := by
    rw [BitVec.toNat_add]
    apply Nat.mod_eq_of_lt
    by_contra wraps
    refine small (BitVec.eq_of_toNat_eq ?_)
    rw [BitVec.toNat_add, show w.toNat = 2 ^ 32 - 1 by simp at wraps; omega]
    rfl
  have short : w.toNat + 1 < 2 ^ 32 := next ▸ (w + 1).isLt
  have log : Nat.log2 (w.toNat + 1) < 32 := (Nat.log2_lt (by omega)).mpr short
  have low : 2 ^ Nat.log2 (w.toNat + 1) ≤ w.toNat + 1 := Nat.log2_self_le (by omega)
  have positive : 0 < 2 ^ Nat.log2 (w.toNat + 1) := Nat.two_pow_pos _
  have power : (1#32 <<< Nat.log2 (w.toNat + 1)).toNat =
      2 ^ Nat.log2 (w.toNat + 1) := by
    rw [BitVec.toNat_shiftLeft, Nat.shiftLeft_eq]
    simp only [BitVec.toNat_ofNat]
    rw [Nat.mod_eq_of_lt (by omega)]
    omega
  unfold locateWord
  rw [if_neg small]
  simp only [next, locate, Option.some_inj, Prod.mk.injEq, true_and]
  have smaller : ((1#32 <<< Nat.log2 (w.toNat + 1)) - 1).toNat =
      2 ^ Nat.log2 (w.toNat + 1) - 1 := by
    rw [BitVec.toNat_sub, power]
    simp
    omega
  rw [BitVec.toNat_sub, smaller]
  omega

end Words

section Invariant

variable {α Thread : Type} {s next : State α Thread}

/-- The index of a push that has one and has not published it. -/
def Call.index : Call α → Option (BitVec 32)
  | .segment _ prev _ _ | .allocate _ prev _ _ | .install _ prev _ _ _ => some prev
  | .store _ prev _ _ | .wait prev | .publish prev => some prev
  | _ => none

/-- A push that has not stored its value yet. -/
structure Pushing (s : State α Thread) (v : α) (prev : BitVec 32) (n m : Nat) : Prop where
  unpublished : s.count.toNat ≤ prev.toNat
  value : s.values[prev.toNat]? = some v
  place : locate prev.toNat = (n, m)

/-- What the position of a call says about the array. -/
def CallOk (s : State α Thread) : Call α → Prop
  | .idle | .nullStore | .loadCount => True
  | .segment v prev n m | .allocate v prev n m => Pushing s v prev n m
  | .install v prev n m _ => Pushing s v prev n m
  | .store v prev n m => Pushing s v prev n m ∧ s.seg n ≠ none
  | .wait prev => s.count.toNat ≤ prev.toNat ∧ Stored s prev.toNat
  | .publish prev => s.count = prev ∧ Stored s prev.toNat
  | .returned prev => prev.toNat < s.count.toNat
  | .head r w n visited => r ≤ s.count.toNat ∧ w ≤ r ∧ (w < r → w = 2 ^ n - 1) ∧
      visited = s.values.take w
  | .visit r w n m visited => r ≤ s.count.toNat ∧ w < r ∧ w = 2 ^ n - 1 ∧
      m ≤ min (2 ^ n) (r - w) ∧ visited = s.values.take (w + m)
  | .folded r visited => r ≤ s.count.toNat ∧ visited = s.values.take r
  | .undefined | .nullLoad => False

/-- The invariant of a run in which every push has an index. -/
structure Inv (max : Nat) (s : State α Thread) : Prop where
  prev : s.prev.toNat = s.values.length
  fits : s.values.length ≤ max
  published : s.count.toNat ≤ s.values.length
  calls : ∀ t, CallOk s (s.call t)
  unique : ∀ t u prev, (s.call t).index = some prev → (s.call u).index = some prev → t = u
  stored : ∀ k < s.count.toNat, Stored s k
  returned : s.returned = List.range s.count.toNat

theorem inv_init (max : Nat) : Inv max ({} : State α Thread) where
  prev := rfl
  fits := Nat.zero_le _
  published := Nat.le_refl _
  calls _ := trivial
  unique _ _ _ := nofun
  stored k less := absurd less (Nat.not_lt_zero k)
  returned := rfl

theorem Stored.lt {k : Nat} (stored : Stored s k) : k < s.values.length := by
  obtain ⟨v, _, value, _⟩ := stored
  exact (List.getElem?_eq_some_iff.mp value).1

/-- What a step leaves to the calls of the other threads. -/
structure Kept (s next : State α Thread) : Prop where
  values : s.values <+: next.values
  count : s.count.toNat ≤ next.count.toNat
  stored : ∀ k, Stored s k → Stored next k
  present : ∀ n, s.seg n ≠ none → next.seg n ≠ none

theorem Kept.of_same (values : next.values = s.values) (count : next.count = s.count)
    (seg : next.seg = s.seg) : Kept s next where
  values := values ▸ List.prefix_rfl
  count := count ▸ Nat.le_refl _
  stored k stored := by
    obtain ⟨v, cells, value, here, cell⟩ := stored
    exact ⟨v, cells, values ▸ value, seg ▸ here, cell⟩
  present n present := seg ▸ present

theorem Kept.getElem? (kept : Kept s next) {k : Nat} {v : α} (value : s.values[k]? = some v) :
    next.values[k]? = some v := by
  obtain ⟨more, same⟩ := kept.values
  rw [← same, List.getElem?_append_left (List.getElem?_eq_some_iff.mp value).1, value]

theorem Kept.take (kept : Kept s next) {k : Nat} (inside : k ≤ s.values.length) :
    next.values.take k = s.values.take k := by
  obtain ⟨more, same⟩ := kept.values
  rw [← same, List.take_append_of_le_length inside]

theorem Pushing.kept {v : α} {prev : BitVec 32} {n m : Nat} (pushing : Pushing s v prev n m)
    (kept : Kept s next) (behind : next.count.toNat ≤ prev.toNat) : Pushing next v prev n m :=
  ⟨behind, kept.getElem? pushing.value, pushing.place⟩

theorem CallOk.kept {call : Call α} (published : s.count.toNat ≤ s.values.length)
    (ok : CallOk s call) (kept : Kept s next)
    (behind : ∀ prev, call.index = some prev → next.count.toNat ≤ prev.toNat) :
    CallOk next call := by
  have count := kept.count
  cases call with
  | idle | nullStore | loadCount => trivial
  | segment v prev n m | allocate v prev n m =>
      have pushing : Pushing s v prev n m := ok
      exact pushing.kept kept (behind prev rfl)
  | install v prev n m tmp =>
      have pushing : Pushing s v prev n m := ok
      exact pushing.kept kept (behind prev rfl)
  | store v prev n m => exact ⟨ok.1.kept kept (behind prev rfl), kept.present n ok.2⟩
  | wait prev => exact ⟨behind prev rfl, kept.stored _ ok.2⟩
  | publish prev =>
      obtain ⟨turn, stored⟩ := ok
      have before := behind prev rfl
      refine ⟨BitVec.eq_of_toNat_eq ?_, kept.stored _ stored⟩
      rw [turn] at count
      omega
  | returned prev => exact Nat.lt_of_lt_of_le ok count
  | head r w n visited =>
      obtain ⟨seen, inside, start, same⟩ := ok
      refine ⟨Nat.le_trans seen count, inside, start, ?_⟩
      rw [kept.take (by omega), same]
  | visit r w n m visited =>
      obtain ⟨seen, inside, start, within, same⟩ := ok
      refine ⟨Nat.le_trans seen count, inside, start, within, ?_⟩
      rw [kept.take (by omega), same]
  | folded r visited =>
      obtain ⟨seen, same⟩ := ok
      refine ⟨Nat.le_trans seen count, ?_⟩
      rw [kept.take (by omega), same]
  | undefined | nullLoad => exact ok.elim

theorem CallOk.index_unpublished {call : Call α} (ok : CallOk s call) {prev : BitVec 32}
    (index : call.index = some prev) : s.count.toNat ≤ prev.toNat := by
  cases call with
  | segment v k n m | allocate v k n m =>
      cases index
      exact ok.unpublished
  | install v k n m tmp =>
      cases index
      exact ok.unpublished
  | store v k n m =>
      cases index
      exact ok.1.unpublished
  | wait k =>
      cases index
      exact ok.1
  | publish k =>
      cases index
      exact Nat.le_of_eq (congrArg BitVec.toNat ok.1)
  | idle | returned | undefined | nullStore | loadCount | head | visit | folded | nullLoad =>
      cases index

theorem CallOk.index_lt {call : Call α} (ok : CallOk s call) {prev : BitVec 32}
    (index : call.index = some prev) : prev.toNat < s.values.length := by
  have inside {v : α} (value : s.values[prev.toNat]? = some v) : prev.toNat < s.values.length :=
    (List.getElem?_eq_some_iff.mp value).1
  cases call with
  | segment v k n m | allocate v k n m =>
      cases index
      exact inside ok.value
  | install v k n m tmp =>
      cases index
      exact inside ok.value
  | store v k n m =>
      cases index
      exact inside ok.1.value
  | wait k =>
      cases index
      exact ok.2.lt
  | publish k =>
      cases index
      exact ok.2.lt
  | idle | returned | undefined | nullStore | loadCount | head | visit | folded | nullLoad =>
      cases index

theorem Inv.present {max : Nat} (inv : Inv max s) {r n : Nat} (seen : r ≤ s.count.toNat)
    (start : 2 ^ n - 1 < r) : s.seg n ≠ none := by
  obtain ⟨_, cells, _, here, _⟩ := inv.stored (2 ^ n - 1) (by omega)
  have first : locate (2 ^ n - 1) = (n, 0) := locate_segment (Nat.two_pow_pos n)
  rw [first] at here
  rw [here]
  exact nofun

/-- The array as its sequential functions see it. -/
def State.array (s : State α Thread) (max : Nat) : SegmentArray α max where
  seg := s.seg
  count := s.count.toNat

/-- At every moment the array holds the values of the published indices, so that a fold
without interference visits them. -/
theorem Inv.holds {max : Nat} (inv : Inv max s) :
    (s.array max).Holds (s.values.take s.count.toNat) := by
  have published := inv.published
  refine ⟨?_, fun k inside => ?_⟩
  · rw [List.length_take]
    exact (Nat.min_eq_left published).symm
  · rw [List.length_take] at inside
    obtain ⟨v, cells, value, here, cell⟩ := inv.stored k (by omega)
    refine ⟨cells, here, ?_⟩
    rw [List.getElem_take]
    exact cell.trans (List.getElem?_eq_some_iff.mp value).2.symm

section Steps

variable [DecidableEq Thread] {max : Nat} {t : Thread} {call : Call α}

theorem Inv.update (inv : Inv max s) (kept : Kept s next)
    (moved : next.call = Function.update s.call t call) (own : CallOk next call)
    (behind : ∀ u prev, u ≠ t → (s.call u).index = some prev → next.count.toNat ≤ prev.toNat)
    (unique : ∀ u prev, u ≠ t → call.index = some prev → (s.call u).index ≠ some prev)
    (prev : next.prev.toNat = next.values.length) (fits : next.values.length ≤ max)
    (published : next.count.toNat ≤ next.values.length)
    (stored : ∀ k < next.count.toNat, Stored next k)
    (returned : next.returned = List.range next.count.toNat) : Inv max next where
  prev := prev
  fits := fits
  published := published
  calls u := by
    rw [moved]
    by_cases mine : u = t
    · rw [mine, Function.update_self]
      exact own
    · rw [Function.update_of_ne mine]
      exact (inv.calls u).kept inv.published kept fun prev => behind u prev mine
  unique u v prev first second := by
    rw [moved] at first second
    by_cases mine : u = t
    · subst mine
      rw [Function.update_self] at first
      by_cases also : v = u
      · exact also.symm
      · rw [Function.update_of_ne also] at second
        exact absurd second (unique v prev also first)
    · rw [Function.update_of_ne mine] at first
      by_cases also : v = t
      · subst also
        rw [Function.update_self] at second
        exact absurd first (unique u prev mine second)
      · rw [Function.update_of_ne also] at second
        exact inv.unique u v prev first second
  stored := stored
  returned := returned

theorem Inv.move (inv : Inv max s) (kept : Kept s next)
    (moved : next.call = Function.update s.call t call) (own : CallOk next call)
    (index : call.index = none ∨ call.index = (s.call t).index)
    (values : next.values = s.values) (count : next.count = s.count)
    (prev : next.prev = s.prev) (returned : next.returned = s.returned) : Inv max next := by
  refine inv.update kept moved own ?_ ?_ ?_ ?_ ?_ ?_ ?_
  · intro u prev _ index
    rw [count]
    exact (inv.calls u).index_unpublished index
  · intro u prev other mine theirs
    rcases index with none | same
    · exact absurd (mine.symm.trans none) nofun
    · exact other (inv.unique u t prev theirs (same ▸ mine))
  · rw [prev, values, inv.prev]
  · rw [values]
    exact inv.fits
  · rw [count, values]
    exact inv.published
  · rw [count]
    exact fun k less => kept.stored k (inv.stored k less)
  · rw [returned, count, inv.returned]

theorem Inv.goto (inv : Inv max s) (own : CallOk s call)
    (index : call.index = none ∨ call.index = (s.call t).index) : Inv max (s.goto t call) := by
  have kept : Kept s (s.goto t call) := .of_same rfl rfl rfl
  refine inv.move kept rfl (own.kept inv.published kept ?_) index rfl rfl rfl rfl
  exact fun prev mine => own.index_unpublished mine

theorem Inv.fetch [Inhabited α] (inv : Inv max s) (v : α) (fits : s.values.length < max)
    (indexed : s.prev + 1 ≠ 0) :
    Inv max { s.goto t (.located v s.prev (locateWord s.prev)) with
      prev := s.prev + 1
      values := s.values ++ [v] } := by
  have next : (s.prev + 1).toNat = s.values.length + 1 := by
    rw [← inv.prev]
    bv_omega
  have kept : Kept s { s.goto t (.located v s.prev (locateWord s.prev)) with
      prev := s.prev + 1
      values := s.values ++ [v] } := by
    refine ⟨List.prefix_append _ _, Nat.le_refl _, ?_, fun _ => id⟩
    rintro k ⟨w, cells, value, here, cell⟩
    refine ⟨w, cells, ?_, here, cell⟩
    exact (List.getElem?_append_left (List.getElem?_eq_some_iff.mp value).1).trans value
  have place := locateWord_eq indexed
  refine inv.update kept rfl ?_ ?_ ?_ ?_ ?_ ?_ ?_ inv.returned
  · rw [place]
    refine ⟨inv.prev ▸ inv.published, ?_, rfl⟩
    rw [inv.prev]
    exact List.getElem?_concat_length
  · intro u prev _ index
    exact (inv.calls u).index_unpublished index
  · intro u prev _ mine theirs
    rw [place] at mine
    cases mine
    have less := (inv.calls u).index_lt theirs
    rw [inv.prev] at less
    exact absurd less (Nat.lt_irrefl _)
  · rw [next]
    simp
  · rw [List.length_append, List.length_singleton]
    exact fits
  · rw [List.length_append, List.length_singleton]
    exact Nat.le_succ_of_le inv.published
  · exact fun k less => kept.stored k (inv.stored k less)

theorem Inv.install (inv : Inv max s) {v : α} {prev : BitVec 32} {n m : Nat} {tmp : Nat → α}
    (pc : s.call t = .install v prev n m (some tmp)) (absent : s.seg n = none) :
    Inv max { s.goto t (.store v prev n m) with seg := Function.update s.seg n (some tmp) } := by
  have ok : Pushing s v prev n m := by
    have here := inv.calls t
    rw [pc] at here
    exact here
  have kept : Kept s
      { s.goto t (.store v prev n m) with seg := Function.update s.seg n (some tmp) } := by
    refine ⟨List.prefix_rfl, Nat.le_refl _, ?_, ?_⟩
    · rintro k ⟨w, cells, value, here, cell⟩
      refine ⟨w, cells, value, ?_, cell⟩
      refine (Function.update_of_ne ?_ _ _).trans here
      rintro same
      rw [same, absent] at here
      cases here
    · intro other present
      change Function.update s.seg n (some tmp) other ≠ none
      rw [Function.update_apply]
      split
      · exact nofun
      · exact present
  refine inv.move kept rfl ⟨ok.kept kept ok.unpublished, ?_⟩ (.inr ?_) rfl rfl rfl rfl
  · change Function.update s.seg n (some tmp) n ≠ none
    rw [Function.update_self]
    exact nofun
  · rw [pc]
    rfl

/-- A value is stored; the places of other values are other places. -/
theorem Inv.store (inv : Inv max s) {v : α} {prev : BitVec 32} {n m : Nat} {cells : Nat → α}
    (pc : s.call t = .store v prev n m) (here : s.seg n = some cells) :
    Inv max { s.goto t (.wait prev) with
      seg := Function.update s.seg n (some (Function.update cells m v)) } := by
  have ok : Pushing s v prev n m ∧ s.seg n ≠ none := by
    have here := inv.calls t
    rw [pc] at here
    exact here
  have place : locate prev.toNat = (n, m) := ok.1.place
  have mine : Stored { s.goto t (.wait prev) with
      seg := Function.update s.seg n (some (Function.update cells m v)) } prev.toNat := by
    refine ⟨v, Function.update cells m v, ok.1.value, ?_, ?_⟩
    · rw [place]
      exact Function.update_self _ _ _
    · rw [place]
      exact Function.update_self _ _ _
  have kept : Kept s { s.goto t (.wait prev) with
      seg := Function.update s.seg n (some (Function.update cells m v)) } := by
    refine ⟨List.prefix_rfl, Nat.le_refl _, ?_, ?_⟩
    · intro k stored
      by_cases same : k = prev.toNat
      · exact same ▸ mine
      obtain ⟨w, others, value, there, cell⟩ := stored
      by_cases segment : (locate k).1 = n
      · refine ⟨w, Function.update cells m v, value, ?_, ?_⟩
        · rw [segment]
          exact Function.update_self _ _ _
        · have apart : (locate k).2 ≠ m := fun position =>
            same (locate_inj ((Prod.ext segment position).trans place.symm))
          rw [segment, here] at there
          cases there
          exact (Function.update_of_ne apart _ _).trans cell
      · exact ⟨w, others, value, (Function.update_of_ne segment _ _).trans there, cell⟩
    · intro other present
      change Function.update s.seg n _ other ≠ none
      rw [Function.update_apply]
      split
      · exact nofun
      · exact present
  refine inv.move kept rfl ⟨ok.1.unpublished, mine⟩ (.inr ?_) rfl rfl rfl rfl
  rw [pc]
  rfl

/-- The pushes publish in the order of their indices. -/
theorem Inv.publish (inv : Inv max s) {prev : BitVec 32} (pc : s.call t = .publish prev) :
    Inv max { s.goto t (.returned prev) with
      count := prev + 1
      returned := s.returned ++ [prev.toNat] } := by
  have ok : s.count = prev ∧ Stored s prev.toNat := by
    have here := inv.calls t
    rw [pc] at here
    exact here
  have turn : s.count.toNat = prev.toNat := congrArg BitVec.toNat ok.1
  have inside := ok.2.lt
  have bound := inv.prev ▸ s.prev.isLt
  have next : (prev + 1).toNat = prev.toNat + 1 := by
    rw [BitVec.toNat_add]
    apply Nat.mod_eq_of_lt
    simp
    omega
  have kept : Kept s { s.goto t (.returned prev) with
      count := prev + 1
      returned := s.returned ++ [prev.toNat] } := by
    refine ⟨List.prefix_rfl, ?_, fun k stored => stored, fun _ => id⟩
    change s.count.toNat ≤ (prev + 1).toNat
    omega
  refine inv.update kept rfl ?_ ?_ nofun inv.prev inv.fits ?_ ?_ ?_
  · change prev.toNat < (prev + 1).toNat
    omega
  · intro u other apart index
    change (prev + 1).toNat ≤ other.toNat
    have before := (inv.calls u).index_unpublished index
    have differ : other.toNat ≠ prev.toNat := by
      intro same
      obtain rfl := BitVec.eq_of_toNat_eq same
      exact apart (inv.unique u t other index (by rw [pc]; rfl))
    omega
  · change (prev + 1).toNat ≤ s.values.length
    omega
  · intro k less
    change k < (prev + 1).toNat at less
    by_cases last : k = prev.toNat
    · exact last ▸ ok.2
    · exact inv.stored k (by omega)
  · change s.returned ++ [prev.toNat] = List.range (prev + 1).toNat
    rw [next, List.range_succ, inv.returned, turn]

theorem Inv.visit (inv : Inv max s) {r w n m : Nat} {visited : List α} {cells : Nat → α}
    (pc : s.call t = .visit r w n m visited) (inside : m < min (2 ^ n) (r - w))
    (here : s.seg n = some cells) :
    Inv max (s.goto t (.visit r w n (m + 1) (visited ++ [cells m]))) := by
  have ok := inv.calls t
  rw [pc] at ok
  obtain ⟨seen, more, start, within, same⟩ := ok
  have place : locate (w + m) = (n, m) := start ▸ locate_segment (by omega)
  obtain ⟨v, others, value, there, cell⟩ := inv.stored (w + m) (by omega)
  rw [place] at there cell
  rw [here] at there
  cases there
  refine inv.goto ⟨seen, more, start, inside, ?_⟩ (.inl rfl)
  rw [same, ← Nat.add_assoc, List.take_add_one, value, ← cell]
  rfl

theorem Inv.step [Inhabited α] (inv : Inv max s) {action : Action} (indexed : Indexed s action)
    (step : Step max s action next) : Inv max next := by
  have ok (t : Thread) {call : Call α} (pc : s.call t = call) : CallOk s call :=
    pc ▸ inv.calls t
  cases step with
  | fetch free fits => exact inv.fetch _ fits (indexed rfl)
  | present pc present => exact inv.goto ⟨ok _ pc, present⟩ (.inr (by rw [pc]; rfl))
  | @absent t v prev n m pc absent =>
      have pushing : Pushing s v prev n m := ok t pc
      exact inv.goto pushing (.inr (by rw [pc]; rfl))
  | @allocate t v prev n m pc =>
      have pushing : Pushing s v prev n m := ok t pc
      exact inv.goto pushing (.inr (by rw [pc]; rfl))
  | @noMemory t v prev n m pc =>
      have pushing : Pushing s v prev n m := ok t pc
      exact inv.goto pushing (.inr (by rw [pc]; rfl))
  | install pc absent => exact inv.install pc absent
  | installNull pc absent => exact inv.goto trivial (.inl rfl)
  | lost pc present => exact inv.goto ⟨ok _ pc, present⟩ (.inr (by rw [pc]; rfl))
  | store pc here => exact inv.store pc here
  | spin pc other => exact inv
  | turn pc turn => exact inv.goto ⟨turn, (ok _ pc).2⟩ (.inr (by rw [pc]; rfl))
  | publish pc => exact inv.publish pc
  | fold free => exact inv.goto trivial (.inl rfl)
  | loadCount pc =>
      exact inv.goto ⟨Nat.le_refl _, Nat.zero_le _, fun _ => rfl, rfl⟩ (.inl rfl)
  | enter pc more present =>
      obtain ⟨seen, inside, start, same⟩ := ok _ pc
      exact inv.goto ⟨seen, more, start more, Nat.zero_le _, same⟩ (.inl rfl)
  | enterNull pc more absent =>
      obtain ⟨seen, inside, start, same⟩ := ok _ pc
      exact absurd absent (inv.present seen (start more ▸ more))
  | visit pc inside here => exact inv.visit pc inside here
  | @next t r w n m visited pc ended =>
      obtain ⟨seen, more, start, within, same⟩ := ok _ pc
      refine inv.goto ⟨seen, by omega, fun again => ?_, same⟩ (.inl rfl)
      have full : m = 2 ^ n := by omega
      have positive : 0 < 2 ^ n := Nat.two_pow_pos n
      rw [full, start, Nat.pow_succ]
      omega
  | done pc ended =>
      obtain ⟨seen, inside, start, same⟩ := ok _ pc
      exact inv.goto ⟨seen, by rw [same, Nat.le_antisymm inside ended]⟩ (.inl rfl)

theorem inv_of_indexed [Inhabited α]
    (reachable : ((system α Thread max).restrict Indexed).Reachable s) : Inv max s := by
  apply reachable.invariant (Inv max)
  · rintro _ rfl
    exact inv_init max
  · intro state action next _ inv step
    exact inv.step step.1 step.2

end Steps

section Results

variable {max : Nat}

/-- An index below `__max_` belongs to one of the segments, and its position is inside. -/
theorem place_inside {k n m : Nat} (place : locate k = (n, m)) (inside : k < max) :
    n < Nat.size max ∧ m < 2 ^ n := by
  have low : 2 ^ Nat.log2 (k + 1) ≤ k + 1 := Nat.log2_self_le (by omega)
  have high : k + 1 < 2 ^ (Nat.log2 (k + 1) + 1) := Nat.lt_log2_self
  cases place
  constructor
  · exact Nat.lt_size.mpr (by omega)
  · rw [Nat.pow_succ] at high
    omega

theorem Inv.places (inv : Inv max s) {t : Thread} {i j : Nat}
    (place : (s.call t).place = some (i, j)) : i < Nat.size max ∧ j < 2 ^ i := by
  have fits := inv.fits
  have published := inv.published
  have ok := inv.calls t
  have pushed {v : α} {prev : BitVec 32} (pushing : Pushing s v prev i j) :
      i < Nat.size max ∧ j < 2 ^ i := by
    have inside := (List.getElem?_eq_some_iff.mp pushing.value).1
    exact place_inside pushing.place (by omega)
  have entered {r w : Nat} (seen : r ≤ s.count.toNat) (more : w < r) (start : w = 2 ^ i - 1)
      (inside : j < 2 ^ i) : i < Nat.size max ∧ j < 2 ^ i :=
    ⟨Nat.lt_size.mpr (by omega), inside⟩
  cases call : s.call t with
  | segment v prev n m | allocate v prev n m =>
      rw [call] at ok place
      cases place
      exact pushed ok
  | install v prev n m tmp =>
      rw [call] at ok place
      cases place
      exact pushed ok
  | store v prev n m =>
      rw [call] at ok place
      cases place
      exact pushed ok.1
  | head r w n visited =>
      rw [call] at ok place
      obtain ⟨seen, inside, start, same⟩ := ok
      change (if w < r then some (n, 0) else none) = _ at place
      split at place
      · rename_i more
        cases place
        exact entered seen more (start more) (Nat.two_pow_pos _)
      · cases place
  | visit r w n m visited =>
      rw [call] at ok place
      obtain ⟨seen, more, start, within, same⟩ := ok
      change (if m < min (2 ^ n) (r - w) then some (n, m) else none) = _ at place
      split at place
      · cases place
        exact entered seen more start (by omega)
      · cases place
  | idle | wait | publish | returned | undefined | nullStore | loadCount | folded | nullLoad =>
      rw [call] at place
      cases place

variable [DecidableEq Thread]

theorem Inv.grows [Inhabited α] (inv : Inv max s) {action : Action}
    (step : Step max s action next) :
    s.count.toNat ≤ next.count.toNat ∧ s.values <+: next.values := by
  cases step with
  | fetch free fits => exact ⟨Nat.le_refl _, List.prefix_append _ _⟩
  | @publish t prev pc =>
      have ok := inv.calls t
      rw [pc] at ok
      have turn : s.count.toNat = prev.toNat := congrArg BitVec.toNat ok.1
      have inside := ok.2.lt
      have bound := inv.prev ▸ s.prev.isLt
      refine ⟨?_, List.prefix_rfl⟩
      change s.count.toNat ≤ (prev + 1).toNat
      bv_omega
  | _ => exact ⟨Nat.le_refl _, List.prefix_rfl⟩

/-- A fold works with the count that its call has loaded. -/
def Loaded (s : State α Thread) (loaded : Thread → Option Nat) : Prop :=
  ∀ t r, (s.call t).bound = some r → loaded t = some r

/-- A call moves on, and takes its bound from the count or from where it stood. -/
theorem Loaded.move {loaded : Thread → Option Nat} {action : Action} {t : Thread}
    {call : Call α} (holds : Loaded s loaded) (moved : next.call = Function.update s.call t call)
    (own : ∀ r, call.bound = some r → (s.call t = .loadCount ∧ r = s.count.toNat) ∨
      (s.call t).bound = some r ∧ (s.call t).free = false) :
    Loaded next (note loaded s action next) := by
  intro u r bound
  rw [moved] at bound
  unfold note
  rw [moved]
  by_cases mine : u = t
  · subst mine
    rw [Function.update_self] at bound ⊢
    rcases own r bound with ⟨loading, rfl⟩ | ⟨same, busy⟩
    · have moves : call.loads = false := by
        cases call with
        | loadCount => cases bound
        | _ => rfl
      rw [loading, moves]
      rfl
    · have past : (s.call u).loads = false := by
        cases pc : s.call u with
        | loadCount =>
            rw [pc] at same
            cases same
        | _ => rfl
      rw [busy, past]
      exact holds u r same
  · rw [Function.update_of_ne mine] at bound ⊢
    rw [Bool.and_not_self, Bool.and_not_self]
    exact holds u r bound

theorem Loaded.step [Inhabited α] {loaded : Thread → Option Nat} {action : Action}
    (holds : Loaded s loaded) (step : Step max s action next) :
    Loaded next (note loaded s action next) := by
  cases step with
  | @fetch t v free fits =>
      refine holds.move rfl fun r bound => ?_
      unfold Call.located at bound
      split at bound <;> cases bound
  | spin pc other =>
      intro t r bound
      unfold note
      rw [Bool.and_not_self, Bool.and_not_self]
      exact holds t r bound
  | loadCount pc => exact holds.move rfl fun r bound => .inl ⟨pc, (Option.some.inj bound).symm⟩
  | enter pc | visit pc | next pc | done pc =>
      exact holds.move rfl fun r bound => .inr (by rw [pc]; exact ⟨bound, rfl⟩)
  | _ => exact holds.move rfl nofun

theorem Inv.snapshot [Inhabited α] (inv : Inv max s) {loaded : Thread → Option Nat}
    (holds : Loaded s loaded) : Snapshot max s loaded where
  returned := by
    rw [inv.returned, List.length_range]
  indices t prev pc := by
    have ok := inv.calls t
    rw [pc] at ok
    rw [inv.returned]
    exact List.mem_range.mpr ok
  places t n m place := inv.places place
  defined t := by
    have ok := inv.calls t
    constructor
    · intro undefined
      rw [undefined] at ok
      exact ok
    · intro null
      rw [null] at ok
      exact ok
  visits t r w n m visited pc := by
    have ok := inv.calls t
    rw [pc] at ok
    exact ok.2.2.2.2
  folds t r visited pc := by
    have ok := inv.calls t
    rw [pc] at ok
    exact ⟨holds t r (by rw [pc]; rfl), ok⟩
  stored := inv.stored
  grows action next step := inv.grows step

theorem loaded_of_watched [Inhabited α] {loaded : Thread → Option Nat}
    (reachable : (watched ((system α Thread max).restrict Indexed)).Reachable (s, loaded)) :
    Loaded s loaded := by
  refine reachable.invariant (fun run => Loaded run.1 run.2) ?_ ?_
  · rintro ⟨_, _⟩ ⟨rfl, _⟩ t r bound
    cases bound
  · rintro ⟨s, loaded⟩ action ⟨after, later⟩ _ holds ⟨⟨_, step⟩, noted⟩
    obtain rfl : later = note loaded s action after := noted
    change Loaded s loaded at holds
    exact holds.step step

/-- Every run in which each push has an index, watched from its beginning. -/
theorem snapshot_of_indexed [Inhabited α]
    (reachable : ((system α Thread max).restrict Indexed).Reachable s) :
    (∃ loaded, (watched ((system α Thread max).restrict Indexed)).Reachable (s, loaded)) ∧
      ∀ loaded, (watched ((system α Thread max).restrict Indexed)).Reachable (s, loaded) →
        Snapshot max s loaded :=
  ⟨reachable.watch _ _, fun _ watching =>
    (inv_of_indexed reachable).snapshot (loaded_of_watched watching)⟩

end Results

end Invariant

section Runs

theorem reachable_paused (max k : Nat) (fits : k ≤ max) (short : k < 2 ^ 32) :
    ∃ s : State Nat Nat, (system Nat Nat max).Reachable s ∧ s.prev.toNat = k ∧
      s.values.length = k ∧ ∀ t, k ≤ t → s.call t = .idle := by
  induction k with
  | zero => exact ⟨{}, .init rfl, rfl, rfl, fun _ _ => rfl⟩
  | succ k inductionHypothesis =>
      obtain ⟨s, reachable, prev, values, idle⟩ := inductionHypothesis (by omega) (by omega)
      have free : (s.call k).free = true := by rw [idle k (Nat.le_refl k)]; rfl
      refine ⟨_, reachable.step (.fetch (t := k) (v := 0) free (by omega)), ?_, ?_, ?_⟩
      · change (s.prev + 1).toNat = k + 1
        bv_omega
      · rw [List.length_append, values]
        rfl
      · intro t above
        exact (Function.update_of_ne (by omega) _ _).trans (idle t (by omega))

/-- The push that takes the index `2 ^ 32 - 1` has no place. -/
theorem index_wraps : ¬ ∀ s loaded, (watched (system Nat Nat (2 ^ 32))).Reachable (s, loaded) →
    Snapshot (2 ^ 32) s loaded := by
  intro every
  obtain ⟨s, reachable, prev, values, idle⟩ :=
    reachable_paused (2 ^ 32) (2 ^ 32 - 1) (by omega) (by omega)
  have free : (s.call (2 ^ 32 - 1)).free = true := by rw [idle _ (Nat.le_refl _)]; rfl
  have last := reachable.step (.fetch (t := 2 ^ 32 - 1) (v := 0) free (by rw [values]; omega))
  have word : s.prev = 4294967295#32 := BitVec.eq_of_toNat_eq prev
  have undefined : Call.located 0 s.prev (locateWord s.prev) = .undefined := by
    rw [word]
    rfl
  obtain ⟨loaded, watching⟩ := last.watch (fun _ => none) note
  exact ((every _ loaded watching).defined (2 ^ 32 - 1)).1
    ((Function.update_self _ _ _).trans undefined)

/-- Two pushes race for the second segment. A fold loads the count between their
publications and passes the first two of the three values. -/
theorem snapshot_race : ∃ (s : State Nat Nat) (loaded : Nat → Option Nat),
    (watched ((system Nat Nat 5).restrict Indexed)).Reachable (s, loaded) ∧
      s.values = [7, 8, 9] ∧ s.count = 3 ∧ s.call 2 = .folded 2 [7, 8] ∧
      Snapshot 5 s loaded := by
  have go {s next : State Nat Nat} {action : Action}
      (reached : ((system Nat Nat 5).restrict Indexed).Reachable s)
      (step : Step 5 s action next) (indexed : Indexed s action) :
      ((system Nat Nat 5).restrict Indexed).Reachable next := reached.step ⟨indexed, step⟩
  have start : ((system Nat Nat 5).restrict Indexed).Reachable {} := .init rfl
  have first := go start (.fetch (t := 0) (v := 7) rfl (by decide)) fun _ => by decide
  have absent := go first (.absent (t := 0) rfl rfl) nofun
  have allocated := go absent (.allocate (t := 0) rfl) nofun
  have installed := go allocated (.install (t := 0) rfl rfl) nofun
  have stored := go installed (.store (t := 0) rfl rfl) nofun
  have turn := go stored (.turn (t := 0) rfl rfl) nofun
  have published := go turn (.publish (t := 0) rfl) nofun
  have second := go published (.fetch (t := 1) (v := 8) rfl (by decide)) fun _ => by decide
  have third := go second (.fetch (t := 0) (v := 9) rfl (by decide)) fun _ => by decide
  have absentOne := go third (.absent (t := 1) rfl rfl) nofun
  have absentZero := go absentOne (.absent (t := 0) rfl rfl) nofun
  have allocatedOne := go absentZero (.allocate (t := 1) rfl) nofun
  have allocatedZero := go allocatedOne (.allocate (t := 0) rfl) nofun
  have won := go allocatedZero (.install (t := 1) rfl rfl) nofun
  have lost := go won (.lost (t := 0) rfl nofun) nofun
  have storedOne := go lost (.store (t := 1) rfl rfl) nofun
  have turnOne := go storedOne (.turn (t := 1) rfl rfl) nofun
  have publishedOne := go turnOne (.publish (t := 1) rfl) nofun
  have folding := go (go publishedOne (.fold (t := 2) rfl) nofun) (.loadCount (t := 2) rfl) nofun
  have storedZero := go folding (.store (t := 0) rfl rfl) nofun
  have turnZero := go storedZero (.turn (t := 0) rfl rfl) nofun
  have publishedZero := go turnZero (.publish (t := 0) rfl) nofun
  have entered := go publishedZero (.enter (t := 2) rfl (by decide) nofun) nofun
  have visited := go entered (.visit (t := 2) rfl (by decide) rfl) nofun
  have passed := go (go visited (.next (t := 2) rfl rfl) nofun)
    (.enter (t := 2) rfl (by decide) nofun) nofun
  have visitedToo := go passed (.visit (t := 2) rfl (by decide) rfl) nofun
  have folded := go (go visitedToo (.next (t := 2) rfl rfl) nofun)
    (.done (t := 2) rfl (by decide)) nofun
  obtain ⟨⟨loaded, watching⟩, every⟩ := snapshot_of_indexed folded
  exact ⟨_, loaded, watching, rfl, rfl, rfl, every loaded watching⟩

end Runs

end NgrCore.SegmentArray
