import NgrCore.IntrusiveHeap.Path
import NgrCore.IntrusiveHeap.Remove

/-!
Owns `_M_push`: on the nodes in level order it does what the insertion into a binary
heap does. The loop goes down the path of the new position; where the new node is
less it takes the place, and every node below moves one place along the path.
-/

namespace NgrCore.IntrusiveHeap

open NgrCore.Library
open NgrCore.Library.BinaryHeap (parent precedes exchange siftUp Ordered WeakOrder)

/-! ### The path of the new position -/

section Path

variable {k : Nat}

theorem along_lt {d e : Nat} (before : d < e) (long : 2 ^ e ≤ k) : along k e < along k d := by
  induction e with
  | zero => omega
  | succ e inductionHypothesis =>
      have step := (parent_along long).2
      by_cases same : d = e
      · exact same ▸ step
      · have shorter : 2 ^ e ≤ 2 ^ (e + 1) := Nat.pow_le_pow_right (by omega) (by omega)
        have rest := inductionHypothesis (by omega) (by omega)
        omega

theorem along_inj {d e : Nat} (first : 2 ^ d ≤ k) (second : 2 ^ e ≤ k)
    (same : along k d = along k e) : d = e := by
  rcases Nat.lt_trichotomy d e with before | equal | after
  · have lower := along_lt before second
    omega
  · exact equal
  · have lower := along_lt after first
    omega

theorem shorter_path {d e : Nat} (before : d ≤ e) (long : 2 ^ e ≤ k) : 2 ^ d ≤ k :=
  Nat.le_trans (Nat.pow_le_pow_right (by omega) before) long

/-- A child of a place on the path is on the path only as the next place. -/
theorem along_child {d e j : Nat} (long : 2 ^ (e + 1) ≤ k) (start : 2 ^ d ≤ k)
    (inner : j ≠ 0) (child : parent j = along k (e + 1)) (here : j = along k d) : d = e := by
  have positive : k ≠ 0 := by
    have := Nat.two_pow_pos d
    omega
  have below : d ≠ Nat.log2 k := by
    rintro rfl
    rw [along_start positive] at here
    exact inner here
  have next : 2 ^ (d + 1) ≤ k := by
    rw [← Nat.le_log2 positive]
    have := (Nat.le_log2 positive).mpr start
    omega
  have up := (parent_along next).1
  rw [here, up] at child
  have same := along_inj next long child
  omega

end Path

/-! ### Insertion in level order -/

section Lifted

variable {lt : Addr → Addr → Bool} {nodes : List Addr} {node : Addr}

/-- The nodes after the new one rose some places along the path. -/
def lifted (nodes : List Addr) (node : Addr) : Nat → List Addr
  | 0 => nodes ++ [node]
  | d + 1 => exchange (lifted nodes node d) (along (nodes.length + 1) d)
      (along (nodes.length + 1) (d + 1))

theorem lifted_perm (nodes : List Addr) (node : Addr) (d : Nat) :
    (lifted nodes node d).Perm (nodes ++ [node]) := by
  induction d with
  | zero => exact List.Perm.refl _
  | succ d inductionHypothesis => exact (BinaryHeap.exchange_perm _ _ _).trans inductionHypothesis

/-- The new node stands at its place, the nodes of the path below have moved down by
one place each, and the others have stayed. -/
structure Lifted (nodes : List Addr) (node : Addr) (D : Nat) (slot : Nat → Option Addr) : Prop where
  top : slot (along (nodes.length + 1) D) = some node
  path : ∀ d, d < D → slot (along (nodes.length + 1) d) = nodes[along (nodes.length + 1) (d + 1)]?
  rest : ∀ j, (∀ d, d ≤ D → j ≠ along (nodes.length + 1) d) → slot j = nodes[j]?

theorem lifted_slots (node : Addr) (D : Nat) (long : 2 ^ D ≤ nodes.length + 1) :
    Lifted nodes node D fun j => (lifted nodes node D)[j]? := by
  induction D with
  | zero =>
      have last := along_end (nodes.length + 1)
      refine ⟨?_, fun d before => absurd before (by omega), ?_⟩
      · simp [lifted, last]
      · intro j apart
        have other : j ≠ nodes.length := by
          have := apart 0 (Nat.le_refl _)
          omega
        rcases Nat.lt_or_gt_of_ne other with inside | outside
        · simp [lifted, List.getElem?_append_left inside]
        · exact (List.getElem?_eq_none (by simp [lifted]; omega)).trans
            (List.getElem?_eq_none (by omega)).symm
  | succ D inductionHypothesis =>
      have shorter := shorter_path (show D ≤ D + 1 by omega) long
      have previous := inductionHypothesis shorter
      have lower := along_lt (show D < D + 1 by omega) long
      have bounded := along_le (nodes.length + 1) D
      have length := (lifted_perm nodes node D).length_eq
      rw [List.length_append, List.length_singleton] at length
      have first : along (nodes.length + 1) D < (lifted nodes node D).length := by omega
      have second : along (nodes.length + 1) (D + 1) < (lifted nodes node D).length := by omega
      have above : (lifted nodes node D)[along (nodes.length + 1) (D + 1)]? =
          nodes[along (nodes.length + 1) (D + 1)]? := by
        apply previous.rest
        intro d before same
        have equal := along_inj (shorter_path before shorter) long same.symm
        omega
      simp only [lifted, BinaryHeap.getElem?_exchange first second]
      refine ⟨?_, ?_, ?_⟩
      · rw [if_neg (by omega), if_pos rfl]
        exact previous.top
      · intro d before
        by_cases same : d = D
        · subst same
          rw [if_pos rfl]
          exact above
        · have higher := along_lt (show d < D by omega) shorter
          rw [if_neg (by omega), if_neg (by omega)]
          exact previous.path d (by omega)
      · intro j apart
        rw [if_neg (apart D (by omega)), if_neg (apart (D + 1) (Nat.le_refl _))]
        exact previous.rest j fun d before => apart d (by omega)

/-- The new node rises past every greater node of the path. -/
theorem siftUp_lifted (D : Nat) (long : 2 ^ D ≤ nodes.length + 1)
    (less : ∀ d, 0 < d → d ≤ D → ∀ other, nodes[along (nodes.length + 1) d]? = some other →
      lt node other = true) (fuel : Nat) :
    siftUp lt (fuel + D) nodes.length (nodes ++ [node]) =
      siftUp lt fuel (along (nodes.length + 1) D) (lifted nodes node D) := by
  induction D generalizing fuel with
  | zero => rw [along_end, Nat.add_sub_cancel]; rfl
  | succ D inductionHypothesis =>
      have shorter := shorter_path (show D ≤ D + 1 by omega) long
      have slots := lifted_slots node D shorter
      rcases parent_along long with ⟨up, higher⟩
      have inside : along (nodes.length + 1) (D + 1) < nodes.length := by
        have := along_le (nodes.length + 1) D
        omega
      have atUp : (lifted nodes node D)[along (nodes.length + 1) (D + 1)]? =
          nodes[along (nodes.length + 1) (D + 1)]? := by
        apply slots.rest
        intro d before same
        have equal := along_inj (shorter_path before shorter) long same.symm
        omega
      have occupied := List.getElem?_eq_getElem inside
      have moves : precedes lt (lifted nodes node D) (along (nodes.length + 1) D)
          (parent (along (nodes.length + 1) D)) = true := by
        rw [up, BinaryHeap.precedes_eq_true]
        exact ⟨node, _, slots.top, atUp.trans occupied, less (D + 1) (by omega) (Nat.le_refl _) _
          occupied⟩
      have rises : siftUp lt (fuel + 1 + D) nodes.length (nodes ++ [node]) =
          siftUp lt (fuel + 1) (along (nodes.length + 1) D) (lifted nodes node D) :=
        inductionHypothesis shorter (fun d positive before => less d positive (by omega)) (fuel + 1)
      rw [show fuel + (D + 1) = fuel + 1 + D by omega, rises, siftUp, if_pos ⟨by omega, moves⟩, up]
      rfl

/-- Insertion stops below the first node of the path that is not greater. -/
theorem push_lifted {D : Nat} (long : 2 ^ D ≤ nodes.length + 1)
    (less : ∀ d, 0 < d → d ≤ D → ∀ other, nodes[along (nodes.length + 1) d]? = some other →
      lt node other = true)
    (stops : 2 ^ (D + 1) ≤ nodes.length + 1 → ∀ other,
      nodes[along (nodes.length + 1) (D + 1)]? = some other → lt node other = false) :
    BinaryHeap.push lt nodes node = lifted nodes node D := by
  have slots := lifted_slots node D long
  have short : D ≤ nodes.length := by
    have := (Nat.lt_two_pow_self (n := D))
    omega
  have rises := siftUp_lifted D long less (nodes.length - D)
  rw [Nat.sub_add_cancel short] at rises
  rw [BinaryHeap.push, rises]
  by_cases longer : 2 ^ (D + 1) ≤ nodes.length + 1
  · rcases parent_along longer with ⟨up, higher⟩
    have stays : precedes lt (lifted nodes node D) (along (nodes.length + 1) D)
        (parent (along (nodes.length + 1) D)) = false := by
      rw [up, BinaryHeap.precedes_eq_false]
      intro a b first second
      rw [slots.top] at first
      have second' : nodes[along (nodes.length + 1) (D + 1)]? = some b := by
        rw [← second]
        refine (slots.rest _ fun d before same => ?_).symm
        have equal := along_inj (shorter_path before long) longer same.symm
        omega
      cases first
      exact stops longer b second'
    cases nodes.length - D with
    | zero => rfl
    | succ fuel => rw [siftUp, stays]; simp
  · have last : D = Nat.log2 (nodes.length + 1) := by
      have low := (Nat.le_log2 (by omega)).mpr long
      have high := (Nat.log2_lt (by omega)).mpr (Nat.not_le.mp longer)
      omega
    rw [last, along_start (by omega), BinaryHeap.siftUp_root]

/-- In an ordered heap a node less than one of the path is less than all below. -/
theorem less_below (weak : WeakOrder lt) (ordered : Ordered lt nodes) {D : Nat} {there : Addr}
    (long : 2 ^ D ≤ nodes.length + 1) (atThere : nodes[along (nodes.length + 1) D]? = some there)
    (less : lt node there = true) (d : Nat) (positive : 0 < d) (below : d ≤ D) (other : Addr)
    (atOther : nodes[along (nodes.length + 1) d]? = some other) : lt node other = true := by
  induction D generalizing there with
  | zero => omega
  | succ D inductionHypothesis =>
      by_cases same : d = D + 1
      · subst same
        rw [atThere] at atOther
        exact Option.some.inj atOther ▸ less
      · have shorter := shorter_path (show D ≤ D + 1 by omega) long
        rcases parent_along long with ⟨up, higher⟩
        have deeper := along_lt (show 0 < D by omega) shorter
        rw [along_end] at deeper
        have occupied := List.getElem?_eq_getElem
          (show along (nodes.length + 1) D < nodes.length by omega)
        have order := BinaryHeap.precedes_eq_false.mp (ordered (along (nodes.length + 1) D)
          (by omega)) _ there occupied (by rw [up]; exact atThere)
        refine inductionHypothesis shorter occupied ?_ (by omega)
        by_contra not
        rw [weak.trans order (by simpa using not)] at less
        cases less

end Lifted

/-! ### The inner loop -/

section Displace

variable {heap : Heap} {nodes : List Addr} {node : Addr} {slot : Nat → Option Addr} {D e : Nat}

/-- At the head of the inner loop: the pointers read the final places, except those of
the nodes on the rest of the path, and except the `_Prev` of the nodes beside it. The
nodes that have not moved yet keep their old children. -/
structure Displacing (heap : Heap) (nodes : List Addr) (slot : Nat → Option Addr) (D e : Nat) :
    Prop where
  root : heap.root = slot 0
  left : ∀ {j x}, slot j = some x → (∀ d, d ≤ e → j ≠ along (nodes.length + 1) d) →
    heap.left x = slot (2 * j + 1)
  right : ∀ {j x}, slot j = some x → (∀ d, d ≤ e → j ≠ along (nodes.length + 1) d) →
    heap.right x = slot (2 * j + 2)
  old : ∀ d x, 0 < d → d ≤ e + 1 → d ≤ D → nodes[along (nodes.length + 1) d]? = some x →
    heap.left x = nodes[2 * along (nodes.length + 1) d + 1]? ∧
      heap.right x = nodes[2 * along (nodes.length + 1) d + 2]?
  linked : ∀ j, (∀ d, d < e → j ≠ 0 → parent j = along (nodes.length + 1) (d + 1) →
    j = along (nodes.length + 1) d) → Linked heap slot j

/-- One round: the node takes the place of the one that moves on, whose children it
adopts, and the child beside the path is linked to it. -/
theorem Displacing.step {taker : Addr} {next : Heap} {beside : Nat}
    (displacing : Displacing heap nodes slot D (e + 1)) (lifted : Lifted nodes node D slot)
    (distinct : ∀ {j k x}, slot j = some x → slot k = some x → j = k) (below : e + 1 ≤ D)
    (long : 2 ^ D ≤ nodes.length + 1)
    (atTaker : slot (along (nodes.length + 1) (e + 1)) = some taker)
    (root : next.root = heap.root)
    (left : ∀ x, next.left x = if x = taker then slot (2 * along (nodes.length + 1) (e + 1) + 1)
      else heap.left x)
    (right : ∀ x, next.right x = if x = taker then slot (2 * along (nodes.length + 1) (e + 1) + 2)
      else heap.right x)
    (besidePath : ∀ j, j ≠ 0 → parent j = along (nodes.length + 1) (e + 1) →
      j = along (nodes.length + 1) e ∨ j = beside)
    (child : beside ≠ 0 ∧ parent beside = along (nodes.length + 1) (e + 1))
    (prev : ∀ x, next.prev x = if slot beside = some x then some taker else heap.prev x) :
    Displacing next nodes slot D e := by
  have path := shorter_path below long
  have apart : ∀ {j x}, slot j = some x → j ≠ along (nodes.length + 1) (e + 1) → x ≠ taker := by
    rintro j x here other rfl
    exact other (distinct here atTaker)
  refine ⟨root.trans displacing.root, ?_, ?_, ?_, ?_⟩
  · intro j x here off
    rw [left]
    by_cases same : j = along (nodes.length + 1) (e + 1)
    · subst same
      rw [atTaker] at here
      rw [if_pos (Option.some.inj here).symm]
    · rw [if_neg (apart here same)]
      apply displacing.left here
      intro d before
      by_cases last : d = e + 1
      · exact last ▸ same
      · exact off d (by omega)
  · intro j x here off
    rw [right]
    by_cases same : j = along (nodes.length + 1) (e + 1)
    · subst same
      rw [atTaker] at here
      rw [if_pos (Option.some.inj here).symm]
    · rw [if_neg (apart here same)]
      apply displacing.right here
      intro d before
      by_cases last : d = e + 1
      · exact last ▸ same
      · exact off d (by omega)
  · intro d x positive before within here
    have stands : slot (along (nodes.length + 1) (d - 1)) = some x := by
      rw [lifted.path (d - 1) (by omega), Nat.sub_add_cancel positive]
      exact here
    have other := apart stands fun same => by
      have := along_inj (shorter_path (show d - 1 ≤ D by omega) long) path same
      omega
    rw [left, right, if_neg other, if_neg other]
    exact displacing.old d x positive (by omega) within here
  · intro j off x here
    rw [prev]
    split
    · rename_i known
      have same := distinct here known
      subst same
      simp [above, child.1, child.2, atTaker]
    · rename_i unknown
      refine displacing.linked j ?_ x here
      intro d before inner family
      by_cases last : d = e
      · subst last
        rcases besidePath j inner family with next | same
        · exact next
        · exact absurd (same ▸ here) unknown
      · exact off d (by omega) inner family

/-- What the inner loop leaves behind. -/
structure Placed (heap settled : Heap) (slot : Nat → Option Addr) : Prop where
  shape : Shape settled slot
  linked : ∀ j, Linked settled slot j
  size : settled.size = heap.size
  outside : ∀ x, (∀ j, slot j ≠ some x) → settled.prev x = heap.prev x

/-- The end of the inner loop: the last node that moved has no children. -/
theorem Displacing.finish {moved : Addr} (displacing : Displacing heap nodes slot D 0)
    (lifted : Lifted nodes node D slot)
    (distinct : ∀ {j k x}, slot j = some x → slot k = some x → j = k)
    (atMoved : slot nodes.length = some moved) (childless : heap.right moved = none) :
    Placed heap (heap.setLeft moved none) slot := by
  have last := along_end (nodes.length + 1)
  rw [Nat.add_sub_cancel] at last
  have empty : ∀ j, nodes.length < j → slot j = none := by
    intro j beyond
    rw [lifted.rest j fun d _ same => by
      have := along_le (nodes.length + 1) d
      omega]
    exact List.getElem?_eq_none (by omega)
  have off : ∀ {j x}, slot j = some x → x ≠ moved →
      ∀ d, d ≤ 0 → j ≠ along (nodes.length + 1) d := by
    rintro j x here other d zero rfl
    rw [Nat.le_zero.mp zero, last, atMoved] at here
    exact other (Option.some.inj here).symm
  refine ⟨⟨displacing.root, ?_, ?_, distinct⟩, ?_, rfl, fun _ _ => rfl⟩
  · intro j x here
    rw [Heap.setLeft_left]
    split
    · rename_i same
      rw [distinct here (same ▸ atMoved), empty _ (by omega)]
    · rename_i other
      exact displacing.left here (off here other)
  · intro j x here
    rw [Heap.setLeft_right]
    by_cases same : x = moved
    · rw [distinct here (same ▸ atMoved), same, childless, empty _ (by omega)]
    · exact displacing.right here (off here same)
  · exact fun j => displacing.linked j fun d before => absurd before (by omega)

theorem Lifted.beside (lifted : Lifted nodes node D slot) (long : 2 ^ D ≤ nodes.length + 1)
    (below : e + 1 ≤ D) {j : Nat} (inner : j ≠ 0)
    (child : parent j = along (nodes.length + 1) (e + 1)) (other : j ≠ along (nodes.length + 1) e) :
    slot j = nodes[j]? := by
  apply lifted.rest
  intro d within same
  have next := along_child (shorter_path below long) (shorter_path within long) inner child same
  exact other (next ▸ same)

theorem displaceLoop_round {taker moved : Addr} (lifted : Lifted nodes node D slot)
    (distinct : ∀ {j k x}, slot j = some x → slot k = some x → j = k)
    (long : 2 ^ D ≤ nodes.length + 1) (below : e + 1 ≤ D)
    (atTaker : slot (along (nodes.length + 1) (e + 1)) = some taker)
    (atMoved : nodes[along (nodes.length + 1) (e + 1)]? = some moved)
    (displacing : Displacing heap nodes slot D (e + 1)) (fuel : Nat) :
    ∃ next, displaceLoop (nodes.length + 1) (fuel + 1) (2 ^ e) taker (some moved) heap =
        (if 2 ^ e / 2 ≠ 0 then displaceLoop (nodes.length + 1) fuel (2 ^ e / 2) moved
          nodes[along (nodes.length + 1) e]? next
        else if next.right moved = none then .ok (next.setLeft moved none)
        else .error .assertion) ∧
      Displacing next nodes slot D e ∧
      next.right moved = nodes[2 * along (nodes.length + 1) (e + 1) + 2]? ∧
      next.size = heap.size ∧
      ∀ x, (∀ j, slot j ≠ some x) → next.prev x = heap.prev x := by
  have path := shorter_path below long
  have lower := along_lt (show e < e + 1 by omega) path
  have inside := along_le (nodes.length + 1) e
  have stands : slot (along (nodes.length + 1) e) = some moved :=
    (lifted.path e below).trans atMoved
  have other : moved ≠ taker := by
    rintro rfl
    have same := distinct stands atTaker
    omega
  rcases displacing.old (e + 1) moved (by omega) (by omega) below atMoved with ⟨leftLink, rightLink⟩
  have position := along_succ path
  have leftParent : parent (2 * along (nodes.length + 1) (e + 1) + 1) =
      along (nodes.length + 1) (e + 1) := by unfold parent; omega
  have rightParent : parent (2 * along (nodes.length + 1) (e + 1) + 2) =
      along (nodes.length + 1) (e + 1) := by unfold parent; omega
  rw [displaceLoop]
  simp only [follow, bind, Except.bind, pure, Except.pure]
  by_cases bit : 2 ^ e &&& (nodes.length + 1) ≠ 0
  · rw [if_pos bit] at position
    have beside := lifted.beside long below (by omega) leftParent (by omega)
    have occupied := List.getElem?_eq_getElem
      (show 2 * along (nodes.length + 1) (e + 1) + 1 < nodes.length by omega)
    generalize nodes[2 * along (nodes.length + 1) (e + 1) + 1] = sibling at occupied
    have atSibling := beside.trans occupied
    rw [occupied] at leftLink
    have leftNow : ((heap.setRight taker (some moved)).setLeft taker
        ((heap.setRight taker (some moved)).left moved)).left moved = some sibling := by
      rw [Heap.setLeft_left, if_neg other]
      exact leftLink
    have rightNow : (((heap.setRight taker (some moved)).setLeft taker
        ((heap.setRight taker (some moved)).left moved)).setPrev sibling (some taker)).right moved =
        nodes[2 * along (nodes.length + 1) (e + 1) + 2]? := by
      rw [Heap.setPrev_right, Heap.setLeft_right, Heap.setRight_right, if_neg other]
      exact rightLink
    refine ⟨((heap.setRight taker (some moved)).setLeft taker
      ((heap.setRight taker (some moved)).left moved)).setPrev sibling (some taker), ?_, ?_,
      rightNow, rfl, ?_⟩
    · rw [if_pos bit, leftNow]
      dsimp only
      rw [rightNow, ← position]
    · refine displacing.step lifted distinct below long atTaker rfl ?_ ?_
        (fun j _ family => by unfold parent at *; omega) ⟨by omega, leftParent⟩ ?_
      · intro x
        rw [Heap.setPrev_left, Heap.setLeft_left, atSibling]
        exact congrArg (if x = taker then · else heap.left x) leftLink
      · intro x
        rw [Heap.setPrev_right, Heap.setLeft_right, Heap.setRight_right, ← position, stands]
      · intro x
        rw [Heap.setPrev_prev, atSibling]
        simp [eq_comm]
    · intro x absent
      rw [Heap.setPrev_prev, if_neg]
      · rfl
      · rintro rfl
        exact absent _ atSibling
  · rw [if_neg bit] at position
    have beside := lifted.beside long below (by omega) rightParent (by omega)
    have rightNow : ((heap.setRight taker (heap.right moved)).setLeft taker (some moved)).right
        moved = nodes[2 * along (nodes.length + 1) (e + 1) + 2]? := by
      rw [Heap.setLeft_right, Heap.setRight_right, if_neg other]
      exact rightLink
    have kept : ∀ value : Option Addr,
        (((heap.setRight taker (heap.right moved)).setLeft taker (some moved)).storePrev value
          (some taker)).left = ((heap.setRight taker (heap.right moved)).setLeft taker
            (some moved)).left ∧
        (((heap.setRight taker (heap.right moved)).setLeft taker (some moved)).storePrev value
          (some taker)).right = ((heap.setRight taker (heap.right moved)).setLeft taker
            (some moved)).right ∧
        (((heap.setRight taker (heap.right moved)).setLeft taker (some moved)).storePrev value
          (some taker)).root = heap.root ∧
        (((heap.setRight taker (heap.right moved)).setLeft taker (some moved)).storePrev value
          (some taker)).size = heap.size := by
      intro value
      cases value <;> exact ⟨rfl, rfl, rfl, rfl⟩
    have prevs : ∀ x, (((heap.setRight taker (heap.right moved)).setLeft taker
        (some moved)).storePrev (nodes[2 * along (nodes.length + 1) (e + 1) + 2]?)
          (some taker)).prev x =
        if slot (2 * along (nodes.length + 1) (e + 1) + 2) = some x then some taker
          else heap.prev x := by
      intro x
      rw [beside]
      cases nodes[2 * along (nodes.length + 1) (e + 1) + 2]? with
      | none => rfl
      | some sibling =>
          rw [Heap.storePrev, Heap.setPrev_prev]
          simp [eq_comm]
    have leftNow : (((heap.setRight taker (heap.right moved)).setLeft taker
        (some moved)).storePrev (nodes[2 * along (nodes.length + 1) (e + 1) + 2]?)
          (some taker)).left moved = nodes[along (nodes.length + 1) e]? := by
      rw [(kept _).1, Heap.setLeft_left, if_neg other, Heap.setRight_left, leftLink, ← position]
    refine ⟨((heap.setRight taker (heap.right moved)).setLeft taker (some moved)).storePrev
      nodes[2 * along (nodes.length + 1) (e + 1) + 2]? (some taker), ?_, ?_,
      by rw [(kept _).2.1]; exact rightNow, (kept _).2.2.2, ?_⟩
    · rw [if_neg bit, rightNow, leftNow]
    · refine displacing.step lifted distinct below long atTaker (kept _).2.2.1 ?_ ?_
        (fun j _ family => by unfold parent at *; omega) ⟨by omega, rightParent⟩ prevs
      · intro x
        rw [(kept _).1, Heap.setLeft_left, ← position, stands]
        rfl
      · intro x
        rw [(kept _).2.1, Heap.setLeft_right, Heap.setRight_right, beside, rightLink]
    · intro x absent
      rw [prevs, if_neg (absent _)]

theorem displaceLoop_spec (lifted : Lifted nodes node D slot)
    (distinct : ∀ {j k x}, slot j = some x → slot k = some x → j = k)
    (long : 2 ^ D ≤ nodes.length + 1) (e : Nat) :
    ∀ {fuel : Nat} {heap : Heap} {taker moved : Addr}, e + 1 ≤ fuel → e + 1 ≤ D →
      slot (along (nodes.length + 1) (e + 1)) = some taker →
      nodes[along (nodes.length + 1) (e + 1)]? = some moved →
      Displacing heap nodes slot D (e + 1) →
      ∃ settled, displaceLoop (nodes.length + 1) fuel (2 ^ e) taker (some moved) heap =
        .ok settled ∧ Placed heap settled slot := by
  induction e with
  | zero =>
      intro fuel heap taker moved enough below atTaker atMoved displacing
      obtain ⟨fuel, rfl⟩ : ∃ rest, fuel = rest + 1 := ⟨fuel - 1, by omega⟩
      rcases displaceLoop_round lifted distinct long below atTaker atMoved displacing fuel with
        ⟨next, result, reached, rightLink, size, outside⟩
      have last := along_end (nodes.length + 1)
      rw [Nat.add_sub_cancel] at last
      have position := along_succ (shorter_path below long)
      have childless : next.right moved = none := by
        rw [rightLink]
        exact List.getElem?_eq_none (by split at position <;> omega)
      have stands : slot nodes.length = some moved := by
        rw [← last, lifted.path 0 below]
        exact atMoved
      have placed := reached.finish lifted distinct stands childless
      refine ⟨_, ?_, placed.shape, placed.linked, placed.size.trans size, fun x absent =>
        (placed.outside x absent).trans (outside x absent)⟩
      rw [result, if_neg (by decide), if_pos childless]
  | succ e inductionHypothesis =>
      intro fuel heap taker moved enough below atTaker atMoved displacing
      obtain ⟨fuel, rfl⟩ : ∃ rest, fuel = rest + 1 := ⟨fuel - 1, by omega⟩
      rcases displaceLoop_round lifted distinct long below atTaker atMoved displacing fuel with
        ⟨next, result, reached, rightLink, size, outside⟩
      have shorter := shorter_path (show e + 1 ≤ D by omega) long
      have deeper := along_lt (show e < e + 1 by omega) shorter
      have bounded := along_le (nodes.length + 1) e
      have occupied := List.getElem?_eq_getElem
        (show along (nodes.length + 1) (e + 1) < nodes.length by omega)
      have stands := (lifted.path (e + 1) below).trans atMoved
      rcases inductionHypothesis (show e + 1 ≤ fuel by omega) (by omega) stands occupied
        reached with ⟨settled, finished, placed⟩
      refine ⟨settled, ?_, placed.shape, placed.linked, placed.size.trans size, fun x absent =>
        (placed.outside x absent).trans (outside x absent)⟩
      have half : 2 ^ (e + 1) / 2 = 2 ^ e := by
        rw [Nat.pow_succ, Nat.mul_div_cancel _ (by omega)]
      have positive := Nat.two_pow_pos e
      rw [result, half, if_pos (by omega), occupied]
      exact finished

end Displace

/-! ### The outer loop -/

section Descend

variable {lt : Addr → Addr → Bool} {heap : Heap} {nodes : List Addr} {node : Addr}
  {slot : Nat → Option Addr} {i : Nat} {pp : Slot}

theorem Shape.store_root (shape : Shape heap slot) (cursor : Cursor slot i pp)
    (value : Option Addr) : (heap.store pp value).root = if i = 0 then value else slot 0 := by
  cases cursor with
  | root => rfl
  | left here => exact shape.root
  | right here => exact shape.root

theorem Shape.store_left (shape : Shape heap slot) (cursor : Cursor slot i pp)
    (value : Option Addr) {j : Nat} {x : Addr} (here : slot j = some x) :
    (heap.store pp value).left x = if 2 * j + 1 = i then value else slot (2 * j + 1) := by
  have link := shape.left here
  have distinct := @shape.distinct
  cases cursor with
  | root => rw [if_neg (by omega), ← link]; rfl
  | left atParent =>
      rw [Heap.store, Heap.setLeft_left, link]
      grind
  | right atParent => rw [if_neg (by omega), ← link]; rfl

theorem Shape.store_right (shape : Shape heap slot) (cursor : Cursor slot i pp)
    (value : Option Addr) {j : Nat} {x : Addr} (here : slot j = some x) :
    (heap.store pp value).right x = if 2 * j + 2 = i then value else slot (2 * j + 2) := by
  have link := shape.right here
  have distinct := @shape.distinct
  cases cursor with
  | root => rw [if_neg (by omega), ← link]; rfl
  | left atParent => rw [if_neg (by omega), ← link]; rfl
  | right atParent =>
      rw [Heap.store, Heap.setRight_right, link]
      grind

theorem append_spec (shape : Shape heap fun j => nodes[j]?)
    (linked : ∀ j, Linked heap (fun j => nodes[j]?) j) (fresh : node ∉ nodes)
    (cursor : Cursor (fun j => nodes[j]?) nodes.length pp) :
    Placed heap ((((heap.store pp (some node)).setPrev node
      (above (fun j => nodes[j]?) nodes.length)).setRight node none).setLeft node none)
      fun j => (nodes ++ [node])[j]? := by
  have position : ∀ j, (nodes ++ [node])[j]? =
      if j = nodes.length then some node else nodes[j]? := by
    intro j
    rw [List.getElem?_append]
    grind
  have other : ∀ {j : Nat} {x}, nodes[j]? = some x → x ≠ node := by
    rintro j x here rfl
    exact fresh (List.mem_of_getElem? here)
  have inside : ∀ {j : Nat} {x}, nodes[j]? = some x → j < nodes.length := fun here =>
    (List.getElem?_eq_some_iff.mp here).1
  constructor
  · constructor
    · rw [Heap.setLeft_root, Heap.setRight_root, Heap.setPrev_root, shape.store_root cursor,
        position]
      simp [eq_comm]
    · intro j x here
      rw [position] at here ⊢
      split at here
      · rw [Heap.setLeft_left, if_pos (Option.some.inj here).symm, if_neg (by omega),
          List.getElem?_eq_none (by omega)]
      · rw [Heap.setLeft_left, if_neg (other here), Heap.setRight_left, Heap.setPrev_left,
          shape.store_left cursor _ here]
    · intro j x here
      rw [position] at here ⊢
      split at here
      · rw [Heap.setLeft_right, Heap.setRight_right, if_pos (Option.some.inj here).symm,
          if_neg (by omega), List.getElem?_eq_none (by omega)]
      · rw [Heap.setLeft_right, Heap.setRight_right, if_neg (other here), Heap.setPrev_right,
          shape.store_right cursor _ here]
    · intro j k x first second
      rw [position] at first second
      have distinct := @shape.distinct
      grind
  · intro j x here
    rw [Heap.setLeft_prev, Heap.setRight_prev, Heap.setPrev_prev]
    simp only [position] at here
    have higher : 0 < j → parent j < j := fun _ => by unfold parent; omega
    split at here
    · rename_i same
      subst same
      rw [if_pos (Option.some.inj here).symm]
      unfold above
      split
      · rfl
      · exact ((position _).trans (if_neg (by omega))).symm
    · rw [if_neg (other here), Heap.store_prev, linked j x here]
      have before := inside here
      unfold above
      split
      · rfl
      · exact ((position _).trans (if_neg (by omega))).symm
  · simp
  · intro x absent
    rw [Heap.setLeft_prev, Heap.setRight_prev, Heap.setPrev_prev, if_neg, Heap.store_prev]
    rintro rfl
    exact absent nodes.length (by simp)

/-- The new node takes a place on the path; the inner loop follows. -/
theorem Shape.displacing {D : Nat} {here : Addr} (shape : Shape heap fun j => nodes[j]?)
    (linked : ∀ j, Linked heap (fun j => nodes[j]?) j) (fresh : node ∉ nodes)
    (lifted : Lifted nodes node D slot) (long : 2 ^ D ≤ nodes.length + 1) (positive : 0 < D)
    (cursor : Cursor (fun j => nodes[j]?) (along (nodes.length + 1) D) pp)
    (atHere : nodes[along (nodes.length + 1) D]? = some here) :
    Displacing
      (((heap.setPrev node (above (fun j => nodes[j]?) (along (nodes.length + 1) D))).setPrev here
        (some node)).store pp (some node)) nodes slot D D := by
  have stored := (shape.setPrev node
    (above (fun j => nodes[j]?) (along (nodes.length + 1) D))).setPrev here (some node)
  have known : ∀ {j x}, slot j = some x → (∀ d, d ≤ D → j ≠ along (nodes.length + 1) d) →
      nodes[j]? = some x := fun atJ off => (lifted.rest _ off).symm.trans atJ
  have other : ∀ {j : Nat} {x}, nodes[j]? = some x → x ≠ node := by
    rintro j x atJ rfl
    exact fresh (List.mem_of_getElem? atJ)
  have inside : ∀ {j : Nat} {x}, nodes[j]? = some x → j < nodes.length := fun atJ =>
    (List.getElem?_eq_some_iff.mp atJ).1
  have last := along_end (nodes.length + 1)
  rw [Nat.add_sub_cancel] at last
  -- a child of a place off the path is on the path only as the place of the new node
  have children : ∀ {j c x}, nodes[j]? = some x → (∀ d, d ≤ D → j ≠ along (nodes.length + 1) d) →
      c ≠ 0 → parent c = j →
      (if c = along (nodes.length + 1) D then some node else nodes[c]?) = slot c := by
    intro j c x atJ off inner family
    split
    · rename_i same
      rw [same, lifted.top]
    · rename_i apart
      refine (lifted.rest c fun d before same => ?_).symm
      have deeper : d ≠ D := fun equal => apart (equal ▸ same)
      have up := (parent_along (shorter_path (show d + 1 ≤ D by omega) long)).1
      rw [← same, family] at up
      exact off (d + 1) (by omega) up
  refine ⟨?_, ?_, ?_, ?_, ?_⟩
  · rw [stored.store_root cursor]
    split
    · rename_i top
      rw [← lifted.top, ← top]
    · rename_i inner
      refine (lifted.rest 0 fun d before same => inner ?_).symm
      by_cases equal : d = D
      · exact (equal ▸ same).symm
      · have deeper := along_lt (show d < D by omega) long
        omega
  · intro j x atJ off
    rw [stored.store_left cursor _ (known atJ off)]
    exact children (known atJ off) off (by omega) (by unfold parent; omega)
  · intro j x atJ off
    rw [stored.store_right cursor _ (known atJ off)]
    exact children (known atJ off) off (by omega) (by unfold parent; omega)
  · intro d x deeper _ within atD
    have lower : along (nodes.length + 1) D ≤ along (nodes.length + 1) d := by
      by_cases equal : d = D
      · rw [equal]
      · exact Nat.le_of_lt (along_lt (show d < D by omega) long)
    rw [stored.store_left cursor _ atD, stored.store_right cursor _ atD, if_neg (by omega),
      if_neg (by omega)]
    exact ⟨rfl, rfl⟩
  · intro j off x atJ
    rw [Heap.store_prev, Heap.setPrev_prev, Heap.setPrev_prev]
    have offAbove : ∀ d, d ≤ D → along (nodes.length + 1) D ≤ along (nodes.length + 1) d := by
      intro d within
      by_cases equal : d = D
      · rw [equal]
      · exact Nat.le_of_lt (along_lt (show d < D by omega) long)
    by_cases top : j = along (nodes.length + 1) D
    · rw [top, lifted.top] at atJ
      cases atJ
      rw [if_neg (Ne.symm (other atHere)), if_pos rfl, top]
      unfold above
      split
      · rfl
      · have higher : parent (along (nodes.length + 1) D) < along (nodes.length + 1) D := by
          unfold parent
          omega
        refine (lifted.rest _ fun d within same => ?_).symm
        have lower := offAbove d within
        omega
    by_cases onPath : ∃ d, d < D ∧ j = along (nodes.length + 1) d
    · rcases onPath with ⟨d, before, rfl⟩
      have long' := shorter_path (show d + 1 ≤ D by omega) long
      have atOld : nodes[along (nodes.length + 1) (d + 1)]? = some x :=
        (lifted.path d before).symm.trans atJ
      rcases parent_along long' with ⟨up, higher⟩
      have inner : along (nodes.length + 1) d ≠ 0 := by omega
      simp only [above, inner, if_false, up]
      by_cases next : d + 1 = D
      · rw [next] at atOld ⊢
        rw [atHere] at atOld
        rw [if_pos (Option.some.inj atOld).symm, lifted.top]
      · have lower := along_lt (show d + 1 < D by omega) long
        have longer := shorter_path (show d + 1 + 1 ≤ D by omega) long
        have apart : x ≠ here := by
          rintro rfl
          have same : along (nodes.length + 1) (d + 1) = along (nodes.length + 1) D :=
            shape.distinct atOld atHere
          omega
        rw [if_neg apart, if_neg (other atOld), linked _ x atOld, lifted.path (d + 1) (by omega)]
        simp [above, (parent_along longer).1, show along (nodes.length + 1) (d + 1) ≠ 0 by omega]
    · have free : ∀ d, d ≤ D → j ≠ along (nodes.length + 1) d := by
        intro d within same
        by_cases equal : d = D
        · exact top (equal ▸ same)
        · exact onPath ⟨d, by omega, same⟩
      have atOld := known atJ free
      have bounded := inside atOld
      have apart : x ≠ here := by
        rintro rfl
        exact top (shape.distinct atOld atHere)
      rw [if_neg apart, if_neg (other atOld), linked j x atOld]
      unfold above
      split
      · rfl
      · rename_i inner
        have higher : parent j < j := by unfold parent; omega
        refine (lifted.rest _ fun d within same => ?_).symm
        by_cases zero : d = 0
        · rw [zero, last] at same
          omega
        · refine free (d - 1) (by omega) (off (d - 1) (by omega) inner ?_)
          rw [Nat.sub_add_cancel (by omega)]
          exact same

theorem pushLoop_spec (weak : WeakOrder lt) (shape : Shape heap fun j => nodes[j]?)
    (linked : ∀ j, Linked heap (fun j => nodes[j]?) j) (ordered : Ordered lt nodes)
    (nodup : (nodes ++ [node]).Nodup) (fresh : node ∉ nodes) (e : Nat) :
    ∀ {fuel : Nat} {pp : Slot}, e < fuel → 2 ^ e ≤ nodes.length + 1 →
      Cursor (fun j => nodes[j]?) (along (nodes.length + 1) e) pp →
      (2 ^ (e + 1) ≤ nodes.length + 1 → ∀ other,
        nodes[along (nodes.length + 1) (e + 1)]? = some other → lt node other = false) →
      ∃ settled, pushLoop lt node (nodes.length + 1) fuel (2 ^ e / 2) pp
          nodes[along (nodes.length + 1) e]?
          (above (fun j => nodes[j]?) (along (nodes.length + 1) e)) heap = .ok settled ∧
        Placed heap settled fun j => (BinaryHeap.push lt nodes node)[j]? := by
  have last := along_end (nodes.length + 1)
  rw [Nat.add_sub_cancel] at last
  induction e with
  | zero =>
      intro fuel pp enough long cursor stops
      obtain ⟨fuel, rfl⟩ : ∃ rest, fuel = rest + 1 := ⟨fuel - 1, by omega⟩
      rw [push_lifted long (fun d positive before => absurd before (by omega)) stops]
      rw [last] at cursor ⊢
      refine ⟨_, ?_, append_spec shape linked fresh cursor⟩
      simp [pushLoop]
  | succ e inductionHypothesis =>
      intro fuel pp enough long cursor stops
      obtain ⟨fuel, rfl⟩ : ∃ rest, fuel = rest + 1 := ⟨fuel - 1, by omega⟩
      have half : 2 ^ (e + 1) / 2 = 2 ^ e := by
        rw [Nat.pow_succ, Nat.mul_div_cancel _ (by omega)]
      have positive := Nat.two_pow_pos e
      rcases parent_along long with ⟨up, higher⟩
      have bounded := along_le (nodes.length + 1) e
      have occupied := List.getElem?_eq_getElem
        (show along (nodes.length + 1) (e + 1) < nodes.length by omega)
      generalize nodes[along (nodes.length + 1) (e + 1)] = here at occupied
      rw [pushLoop, half, if_pos (by omega), occupied]
      by_cases less : lt node here = true
      · have below := less_below weak ordered long occupied less
        have slots := lifted_slots node (e + 1) long
        have nodup' : (lifted nodes node (e + 1)).Nodup :=
          (lifted_perm nodes node (e + 1)).nodup_iff.mpr nodup
        have distinct : ∀ {j k x}, (lifted nodes node (e + 1))[j]? = some x →
            (lifted nodes node (e + 1))[k]? = some x → j = k := fun first second =>
          (List.getElem?_inj (List.getElem?_eq_some_iff.mp first).1 nodup').mp
            (first.trans second.symm)
        have displacing := shape.displacing linked fresh slots long (by omega) cursor occupied
        rcases displaceLoop_spec slots distinct long e (show e + 1 ≤ fuel by omega) (Nat.le_refl _)
          slots.top occupied displacing with ⟨settled, result, placed⟩
        rw [push_lifted long below stops]
        refine ⟨settled, ?_, placed.shape, placed.linked, placed.size.trans ?_, ?_⟩
        · refine (bind_ok (show follow (some here) = .ok here from rfl)).trans ?_
          exact (if_pos less).trans result
        · simp
        · intro x absent
          rw [placed.outside x absent, Heap.store_prev, Heap.setPrev_prev, Heap.setPrev_prev,
            if_neg, if_neg]
          · rintro rfl
            exact absent _ slots.top
          · rintro rfl
            exact absent _ ((slots.path e (by omega)).trans occupied)
      · have next := cursor_along long occupied
        have upper : above (fun j => nodes[j]?) (along (nodes.length + 1) e) = some here := by
          simp [above, up, occupied, show along (nodes.length + 1) e ≠ 0 by omega]
        rcases inductionHypothesis (show e < fuel by omega) (shorter_path (by omega) long) next
          (fun _ other atOther => by
            rw [occupied] at atOther
            cases atOther
            simpa using less) with ⟨settled, result, placed⟩
        rw [upper, ← shape.load next] at result
        refine ⟨settled, ?_, placed⟩
        refine (bind_ok (show follow (some here) = .ok here from rfl)).trans ?_
        exact (if_neg less).trans result

theorem push_spec (weak : WeakOrder lt) (represents : Represents heap nodes)
    (ordered : Ordered lt nodes) (idle : Idle heap nodes) (fresh : node ∉ nodes) :
    ∃ next, push lt heap node = .ok next ∧ Represents next (BinaryHeap.push lt nodes node) ∧
      Idle next (BinaryHeap.push lt nodes node) := by
  have perm : (BinaryHeap.push lt nodes node).Perm (node :: nodes) :=
    BinaryHeap.push_perm nodes node
  have nodup : (nodes ++ [node]).Nodup :=
    (List.perm_append_singleton node nodes).nodup_iff.mpr
      (List.nodup_cons.mpr ⟨fresh, represents.nodup⟩)
  have start := along_start (show nodes.length + 1 ≠ 0 by omega)
  have size : heap.size + 1 = nodes.length + 1 := by rw [represents.size]
  have shape : Shape { heap with size := heap.size + 1 } fun j => nodes[j]? :=
    ⟨represents.shape.root, represents.shape.left, represents.shape.right,
      represents.shape.distinct⟩
  have cursor : Cursor (fun j => nodes[j]?)
      (along (nodes.length + 1) (Nat.log2 (nodes.length + 1))) .root := by
    rw [start]
    exact .root
  have shorter : Nat.log2 (nodes.length + 1) < nodes.length + 1 := by
    rw [Nat.log2_lt (by omega)]
    exact Nat.lt_two_pow_self
  have long := Nat.log2_self_le (show nodes.length + 1 ≠ 0 by omega)
  rcases pushLoop_spec weak shape represents.linked ordered nodup fresh
    (Nat.log2 (nodes.length + 1)) shorter long cursor (fun longer => absurd longer (by
      have := Nat.lt_log2_self (n := nodes.length + 1)
      omega)) with ⟨settled, result, placed⟩
  refine ⟨settled, ?_, ⟨placed.shape, placed.size.trans ?_, placed.linked⟩, ?_⟩
  · rw [start, ← pathBitMask_eq (by omega)] at result
    rw [push, ← result]
    simp only [size, represents.shape.root]
    rfl
  · rw [perm.length_eq, List.length_cons, ← size]
  · intro x absent
    have outside : x ∉ node :: nodes := fun member => absent (perm.mem_iff.mpr member)
    rw [placed.outside x fun j here => absent (List.mem_of_getElem? here)]
    exact idle x fun member => outside (List.mem_cons_of_mem _ member)

end Descend

end NgrCore.IntrusiveHeap
