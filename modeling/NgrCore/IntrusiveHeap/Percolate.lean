import NgrCore.IntrusiveHeap.Shape

/-!
Owns `__heap_up_percolate`: on the nodes in level order it does what `siftUp` does,
and it repairs every `_Prev`. The sibling and the grandparent it follows are there
because the rising node is not less than the root, and because a left child without
a sibling is never the place of a node that rises.
-/

namespace NgrCore.IntrusiveHeap

open NgrCore.Library
open NgrCore.Library.BinaryHeap (parent precedes exchange siftUp)

variable {heap : Heap} {slot : Nat → Option Addr} {i : Nat} {up : Addr} {x : Option Addr}

/-- At the head of the loop: every `_Prev` is right except those of the rising node
and of its children. These point to the node above already, but for the child that
`__parent_x` is about to write. -/
structure Rising (heap : Heap) (slot : Nat → Option Addr) (i : Nat) (up : Addr)
    (x : Option Addr) : Prop where
  shape : Shape heap slot
  linked : ∀ j, j ≠ i → (j = 0 ∨ parent j ≠ i) → Linked heap slot j
  children : ∀ j node, 0 < j → parent j = i → slot j = some node → some node ≠ x →
    heap.prev node = some up
  written : ∀ node, x = some node → ∃ j, 0 < j ∧ parent j = i ∧ slot j = some node

theorem Rising.step {p sibling : Addr} {s : Nat} {next : Heap} (rising : Rising heap slot i up x)
    (inner : i ≠ 0) (atP : slot i = some p) (atUp : slot (parent i) = some up)
    (siblingParent : parent s = parent i) (other : s ≠ i) (positive : 0 < s)
    (only : ∀ j, 0 < j → parent j = parent i → j = i ∨ j = s)
    (atSibling : slot s = some sibling) {grand : Addr} (upper : parent i ≠ 0)
    (atGrand : slot (parent (parent i)) = some grand)
    (shape : Shape next (exchanged slot (parent i) i))
    (prev : next.prev = (heap.storePrev x (some up)).prev) :
    Rising next (exchanged slot (parent i) i) (parent i) grand (some sibling) := by
  have higher : parent i < i := by unfold parent; omega
  have highest : parent (parent i) < parent i := by unfold parent at *; omega
  have distinct := @rising.shape.distinct
  have kept : ∀ j node, slot j = some node → j = 0 ∨ parent j ≠ i →
      next.prev node = heap.prev node := by
    intro j node here elsewhere
    rw [prev]
    cases known : x with
    | none => rfl
    | some child =>
        rcases rising.written child known with ⟨c, deeper, family, atChild⟩
        rw [Heap.storePrev, Heap.setPrev_prev, if_neg]
        rintro rfl
        have same := distinct here atChild
        subst same
        omega
  have adopted : ∀ j node, 0 < j → parent j = i → slot j = some node →
      next.prev node = some up := by
    intro j node deeper family here
    rw [prev]
    cases known : x with
    | none => exact rising.children j node deeper family here (by simp [known])
    | some child =>
        rw [Heap.storePrev, Heap.setPrev_prev]
        split
        · rfl
        · rename_i apart
          exact rising.children j node deeper family here (by simpa [known] using apart)
  refine ⟨shape, ?_, ?_, ?_⟩
  · intro j apart elsewhere node here
    by_cases risen : j = i
    · subst risen
      omega
    · have stands : slot j = some node := by simpa [exchanged, apart, risen] using here
      by_cases family : 0 < j ∧ parent j = i
      · rw [adopted j node family.1 family.2 stands]
        simp [above, exchanged, family.2, Nat.ne_of_gt family.1, Nat.ne_of_gt higher, atUp]
      · have outside : j = 0 ∨ parent j ≠ i := by omega
        rw [kept j node stands outside, rising.linked j risen outside node stands]
        unfold above exchanged
        grind
  · intro j node deeper family here unwritten
    rcases only j deeper family with same | same
    · subst same
      have same : node = up := by
        simpa [exchanged, Nat.ne_of_gt higher, atUp, eq_comm] using here
      subst same
      have outside : parent j = 0 ∨ parent (parent j) ≠ j := by omega
      rw [kept _ node atUp outside, rising.linked _ (by omega) outside node atUp]
      simp [above, upper, atGrand]
    · subst same
      have lower : j ≠ parent i := by unfold parent at *; omega
      have same : some node = some sibling := by
        rw [← atSibling, ← here]
        simp [exchanged, lower, other]
      exact absurd same unwritten
  · rintro node same
    cases same
    have lower : s ≠ parent i := by unfold parent at *; omega
    exact ⟨s, positive, siblingParent, by simp [exchanged, lower, other, atSibling]⟩

theorem Rising.rest {p : Addr} {next : Heap} (rising : Rising heap slot i up x) (inner : i ≠ 0)
    (atP : slot i = some p) (atUp : slot (parent i) = some up) (last : next.prev p = some up)
    (children : ∀ j node, 0 < j → parent j = i → slot j = some node → next.prev node = some p)
    (others : ∀ j node, slot j = some node → j ≠ i → (j = 0 ∨ parent j ≠ i) →
      next.prev node = heap.prev node) :
    ∀ j, Linked next slot j := by
  intro j node here
  by_cases stopped : j = i
  · subst stopped
    rw [atP] at here
    cases here
    rw [last]
    simp [above, inner, atUp]
  · by_cases family : 0 < j ∧ parent j = i
    · rw [children j node family.1 family.2 here]
      simp [above, family.2, atP, Nat.ne_of_gt family.1]
    · have elsewhere : j = 0 ∨ parent j ≠ i := by omega
      rw [others j node here stopped elsewhere]
      exact rising.linked j stopped elsewhere node here

theorem cursor_parent {node above : Addr} {right : Option Addr} (distinct : ∀ {j k node},
      slot j = some node → slot k = some node → j = k) (inner : i ≠ 0) (here : slot i = some node)
    (atParent : slot (parent i) = some above) (links : right = slot (2 * parent i + 2)) :
    Cursor slot i (if right = some node then .right above else .left above) := by
  split
  · rename_i onRight
    have same : i = 2 * parent i + 2 := distinct here (links.symm.trans onRight)
    rw [same]
    exact .right atParent
  · rename_i onLeft
    have apart : i ≠ 2 * parent i + 2 := by
      intro same
      exact onLeft (by rw [links, ← same, here])
    have same : i = 2 * parent i + 1 := by unfold parent at *; omega
    rw [same]
    exact .left atParent

/-- One round up to the comparison: the grandparent is linked to the rising node. -/
theorem Rising.round {p sibling grand : Addr} {s : Nat} {swapped : Heap}
    (rising : Rising heap slot i up x) (inner : i ≠ 0) (atP : slot i = some p)
    (atUp : slot (parent i) = some up) (siblingParent : parent s = parent i) (other : s ≠ i)
    (positive : 0 < s) (only : ∀ j, 0 < j → parent j = parent i → j = i ∨ j = s)
    (atSibling : slot s = some sibling) (upper : parent i ≠ 0)
    (atGrand : slot (parent (parent i)) = some grand)
    (shape : ShapeBut swapped (exchanged slot (parent i) i) (parent i))
    (prev : swapped.prev = (heap.storePrev x (some up)).prev)
    (right : swapped.right grand = slot (2 * parent (parent i) + 2)) :
    Rising (if swapped.right grand = some up then swapped.setRight grand (some p)
        else swapped.setLeft grand (some p))
      (exchanged slot (parent i) i) (parent i) grand (some sibling) := by
  have higher : parent i < i := by unfold parent; omega
  have cursor := cursor_parent rising.shape.distinct upper atUp atGrand right
  have moved : exchanged slot (parent i) i (parent i) = some p := by simp [exchanged, atP]
  have stored := shape.store (cursor.congr fun j before => exchanged_before before higher)
  rw [moved] at stored
  apply rising.step inner atP atUp siblingParent other positive only atSibling upper atGrand
  · split at stored
    · rename_i onRight
      rw [if_pos onRight]
      exact stored
    · rename_i onLeft
      rw [if_neg onLeft]
      exact stored
  · split
    · exact prev
    · exact prev

/-! ### The loop -/

/-- What the loop leaves behind. -/
structure Risen (heap settled : Heap) (before after : List Addr) : Prop where
  shape : Shape settled fun j => after[j]?
  linked : ∀ j, Linked settled (fun j => after[j]?) j
  size : settled.size = heap.size
  outside : ∀ node, node ∉ before → settled.prev node = heap.prev node

section Loop

variable {lt : Addr → Addr → Bool} {nodes : List Addr} {p : Addr}

/-- What one round hands to the next, or to the end of the loop. -/
theorem Rising.climbed {settled next : Heap} {after : List Addr}
    (rising : Rising heap (fun j => nodes[j]?) i up x)
    (risen : Risen next settled (exchange nodes i (parent i)) after)
    (size : next.size = heap.size)
    (prev : next.prev = (heap.storePrev x (some up)).prev) :
    Risen heap settled nodes after := by
  refine ⟨risen.shape, risen.linked, risen.size.trans size, ?_⟩
  intro node absent
  rw [risen.outside node fun member => absent ((BinaryHeap.exchange_perm _ _ _).mem_iff.mp member),
    prev]
  cases known : x with
  | none => rfl
  | some child =>
      rcases rising.written child known with ⟨c, _, _, atChild⟩
      rw [Heap.storePrev, Heap.setPrev_prev, if_neg]
      rintro rfl
      exact absent (List.mem_of_getElem? atChild)

theorem Rising.risen {sibling : Addr}
    (rising : Rising heap (fun j => nodes[j]?) i up (some sibling)) (inner : i ≠ 0)
    (atP : nodes[i]? = some p) (atUp : nodes[parent i]? = some up) {other : Addr}
    (children : ∀ j node, 0 < j → parent j = i → nodes[j]? = some node →
      node = sibling ∨ node = other)
    (otherInside : ∃ j, 0 < j ∧ parent j = i ∧ nodes[j]? = some other) :
    Risen heap (((heap.setPrev sibling (some p)).setPrev other (some p)).setPrev p (some up))
      nodes nodes := by
  have distinct := @rising.shape.distinct
  rcases rising.written sibling rfl with ⟨s, positive, family, atSibling⟩
  rcases otherInside with ⟨o, positive', family', atOther⟩
  have lower : s ≠ i ∧ o ≠ i := by unfold parent at *; omega
  refine ⟨((rising.shape.setPrev _ _).setPrev _ _).setPrev _ _, ?_, rfl, ?_⟩
  · apply rising.rest inner atP atUp
    · simp [Heap.setPrev_prev]
    · intro j node deeper child here
      have apart : node ≠ p := by
        rintro rfl
        have same := distinct here atP
        unfold parent at child
        omega
      rcases children j node deeper child here with rfl | rfl
      · simp [Heap.setPrev_prev, apart]
      · simp [Heap.setPrev_prev, apart]
    · intro j node here apart elsewhere
      have fromSibling : node ≠ sibling := by
        rintro rfl
        have same := distinct here atSibling
        subst same
        omega
      have fromOther : node ≠ other := by
        rintro rfl
        have same := distinct here atOther
        subst same
        omega
      have fromP : node ≠ p := by
        rintro rfl
        exact apart (distinct here atP)
      simp [Heap.setPrev_prev, fromSibling, fromOther, fromP]
  · intro node absent
    have apart : node ≠ sibling ∧ node ≠ other ∧ node ≠ p := by
      refine ⟨?_, ?_, ?_⟩
      · rintro rfl
        exact absent (List.mem_of_getElem? atSibling)
      · rintro rfl
        exact absent (List.mem_of_getElem? atOther)
      · rintro rfl
        exact absent (List.mem_of_getElem? atP)
    simp [Heap.setPrev_prev, apart.1, apart.2.1, apart.2.2]

/-- The round after the exchange: on to the grandparent, or the end. -/
theorem Rising.finish {sibling : Addr} {s fuel : Nat} {swapped : Heap}
    (rising : Rising heap (fun j => nodes[j]?) i up x) (inner : i ≠ 0) (atP : nodes[i]? = some p)
    (atUp : nodes[parent i]? = some up) (less : lt p up = true)
    (bounded : ∀ root, nodes[0]? = some root → lt p root = false)
    (siblingParent : parent s = parent i) (other : s ≠ i) (positive : 0 < s)
    (only : ∀ j, 0 < j → parent j = parent i → j = i ∨ j = s) (atSibling : nodes[s]? = some sibling)
    (shape : ShapeBut swapped (exchanged (fun j => nodes[j]?) (parent i) i) (parent i))
    (prev : swapped.prev = (heap.storePrev x (some up)).prev) (size : swapped.size = heap.size)
    (right : ∀ node, node ≠ p → node ≠ up → swapped.right node = heap.right node)
    (inductionHypothesis : ∀ {nodes : List Addr} {heap : Heap} {i : Nat} {up : Addr}
      {x : Option Addr}, i ≤ fuel → i ≠ 0 → nodes[i]? = some p → nodes[parent i]? = some up →
      lt p up = true → (∀ root, nodes[0]? = some root → lt p root = false) →
      (i % 2 = 0 ∨ i + 1 < nodes.length) → Rising heap (fun j => nodes[j]?) i up x →
      ∃ settled, percolateLoop lt p fuel up (heap.prev up) x heap = .ok settled ∧
        Risen heap settled nodes (siftUp lt fuel i nodes)) (enough : i ≤ fuel + 1) :
    ∃ settled, (do
        let grand ← follow (heap.prev up)
        let heap := if swapped.right grand = some up then swapped.setRight grand (some p)
          else swapped.setLeft grand (some p)
        if lt p grand then percolateLoop lt p fuel grand (heap.prev grand) (some sibling) heap
        else
          let heap := heap.storePrev (some sibling) (some p)
          let heap := heap.setPrev up (some p)
          .ok (heap.setPrev p (some grand))) = .ok settled ∧
      Risen heap settled nodes (siftUp lt (fuel + 1) i nodes) := by
  have inside := (List.getElem?_eq_some_iff.mp atP).1
  have higher : parent i < i := by unfold parent; omega
  have distinct := @rising.shape.distinct
  have upper : parent i ≠ 0 := by
    intro top
    rw [top] at atUp
    rw [bounded up atUp] at less
    cases less
  have highest : parent (parent i) < parent i := by unfold parent at *; omega
  have atGrand := List.getElem?_eq_getElem (show parent (parent i) < nodes.length by omega)
  generalize nodes[parent (parent i)] = grand at atGrand
  have prevUp : heap.prev up = some grand := by
    rw [rising.linked (parent i) (by omega) (.inr (by omega)) up atUp]
    simp [above, upper, atGrand]
  have fromP : grand ≠ p := by
    rintro rfl
    have same := distinct atGrand atP
    omega
  have fromUp : grand ≠ up := by
    rintro rfl
    have same := distinct atGrand atUp
    omega
  have moves : precedes lt nodes i (parent i) = true :=
    BinaryHeap.precedes_eq_true.mpr ⟨p, up, atP, atUp, less⟩
  have next := rising.round inner atP atUp siblingParent other positive only atSibling upper
    atGrand shape prev ((right grand fromP fromUp).trans (rising.shape.right atGrand))
  rw [prevUp, siftUp, if_pos ⟨inner, moves⟩]
  simp only [follow, bind, Except.bind]
  have kept : (if swapped.right grand = some up then swapped.setRight grand (some p)
      else swapped.setLeft grand (some p)).size = heap.size ∧
      (if swapped.right grand = some up then swapped.setRight grand (some p)
      else swapped.setLeft grand (some p)).prev = (heap.storePrev x (some up)).prev := by
    split
    · exact ⟨size, prev⟩
    · exact ⟨size, prev⟩
  generalize (if swapped.right grand = some up then swapped.setRight grand (some p)
    else swapped.setLeft grand (some p)) = climbed at next kept ⊢
  have slots : exchanged (fun j => nodes[j]?) (parent i) i =
      fun j => (exchange nodes i (parent i))[j]? := by
    rw [slots_exchange inside (by omega)]
    funext j
    unfold exchanged
    grind
  rw [slots] at next
  have position : ∀ j, (exchange nodes i (parent i))[j]? =
      exchanged (fun j => nodes[j]?) (parent i) i j := fun j => (congrFun slots j).symm
  have atP' : (exchange nodes i (parent i))[parent i]? = some p := by
    simp [position, exchanged, atP]
  have atGrand' : (exchange nodes i (parent i))[parent (parent i)]? = some grand := by
    rw [position, exchanged_before highest higher]
    exact atGrand
  have bounded' : ∀ root, (exchange nodes i (parent i))[0]? = some root → lt p root = false := by
    intro root atRoot
    rw [position, exchanged_before (by omega) higher] at atRoot
    exact bounded root atRoot
  by_cases again : lt p grand = true
  · rw [if_pos again]
    rcases inductionHypothesis (by omega) upper atP' atGrand' again bounded'
      (.inr (by rw [BinaryHeap.exchange_length]; omega)) next with ⟨settled, result, risen⟩
    exact ⟨settled, result, rising.climbed risen kept.1 kept.2⟩
  · rw [if_neg again]
    have stops : siftUp lt fuel (parent i) (exchange nodes i (parent i)) =
        exchange nodes i (parent i) := by
      cases fuel with
      | zero => rfl
      | succ fuel =>
          rw [siftUp, if_neg]
          rintro ⟨_, also⟩
          rcases BinaryHeap.precedes_eq_true.mp also with ⟨a, b, first, second, order⟩
          rw [atP'] at first
          rw [atGrand'] at second
          cases first
          cases second
          exact again order
    rw [stops]
    refine ⟨_, rfl, rising.climbed (next.risen upper atP' atGrand' ?_ ?_) kept.1 kept.2⟩
    · intro j node deeper family here
      rw [position] at here
      rcases only j deeper family with same | same
      · subst same
        right
        simpa [exchanged, Nat.ne_of_gt higher, atUp, eq_comm] using here
      · subst same
        left
        have lower : j ≠ parent i := by unfold parent at *; omega
        simpa [exchanged, lower, other, atSibling, eq_comm] using here
    · refine ⟨i, by omega, rfl, ?_⟩
      simp [position, exchanged, Nat.ne_of_gt higher, atUp]

theorem percolateLoop_spec (fuel : Nat) :
    ∀ {nodes : List Addr} {heap : Heap} {i : Nat} {up : Addr} {x : Option Addr}, i ≤ fuel →
      i ≠ 0 → nodes[i]? = some p → nodes[parent i]? = some up → lt p up = true →
      (∀ root, nodes[0]? = some root → lt p root = false) →
      (i % 2 = 0 ∨ i + 1 < nodes.length) → Rising heap (fun j => nodes[j]?) i up x →
      ∃ settled, percolateLoop lt p fuel up (heap.prev up) x heap = .ok settled ∧
        Risen heap settled nodes (siftUp lt fuel i nodes) := by
  induction fuel with
  | zero =>
      intro nodes heap i up x enough inner
      omega
  | succ fuel inductionHypothesis =>
      intro nodes heap i up x enough inner atP atUp less bounded whole rising
      have inside := (List.getElem?_eq_some_iff.mp atP).1
      have shape : Shape (heap.storePrev x (some up)) fun j => nodes[j]? := by
        cases x with
        | none => exact rising.shape
        | some child => exact rising.shape.setPrev _ _
      have sizeKept : (heap.storePrev x (some up)).size = heap.size := by cases x <;> rfl
      have rightKept : (heap.storePrev x (some up)).right = heap.right := by cases x <;> rfl
      have leftLink := shape.left atUp
      have rightLink := shape.right atUp
      have apart : p ≠ up := by
        rintro rfl
        have same := rising.shape.distinct atP atUp
        unfold parent at same
        omega
      rw [percolateLoop]
      by_cases side : i = 2 * parent i + 2
      · have onRight : (heap.storePrev x (some up)).right up = some p := by
          rw [rightLink, ← side, atP]
        have atSibling := List.getElem?_eq_getElem
          (show 2 * parent i + 1 < nodes.length by omega)
        generalize nodes[2 * parent i + 1] = sibling at atSibling
        rw [atSibling] at leftLink
        simp only [onRight, leftLink, if_true, follow, bind, Except.bind, pure, Except.pure]
        refine rising.finish inner atP atUp less bounded
          (show parent (2 * parent i + 1) = parent i by unfold parent; omega) (by omega)
          (by omega) (fun j _ _ => by unfold parent at *; omega) atSibling ?_ rfl sizeKept ?_
          inductionHypothesis enough
        · have swapped := shape.swapRight atUp (by rw [← side]; exact atP)
          rw [← side] at swapped
          exact swapped
        · intro node fromP fromUp
          rw [swapWithRightChild_right, if_neg fromP, if_neg fromUp, rightKept]
      · have onLeft : (heap.storePrev x (some up)).right up ≠ some p := by
          intro onRight
          exact side (rising.shape.distinct atP (rightLink.symm.trans onRight))
        have side' : i = 2 * parent i + 1 := by unfold parent at *; omega
        have atSibling := List.getElem?_eq_getElem
          (show 2 * parent i + 2 < nodes.length by omega)
        generalize nodes[2 * parent i + 2] = sibling at atSibling
        rw [atSibling] at rightLink
        rw [rightLink] at onLeft
        simp only [onLeft, rightLink, if_false, follow, bind, Except.bind, pure, Except.pure]
        refine rising.finish inner atP atUp less bounded
          (show parent (2 * parent i + 2) = parent i by unfold parent; omega) (by omega)
          (by omega) (fun j _ _ => by unfold parent at *; omega) atSibling ?_ rfl sizeKept ?_
          inductionHypothesis enough
        · have swapped := shape.swapLeft atUp (by rw [← side']; exact atP)
          rw [← side'] at swapped
          exact swapped
        · intro node fromP fromUp
          rw [swapWithLeftChild_right, if_neg fromP, if_neg fromUp, rightKept]

/-- `__heap_up_percolate` on a node whose own `_Prev` and whose children's are stale. -/
theorem heapUpPercolate_spec (fuel : Nat) (enough : i ≤ fuel) (inner : i ≠ 0)
    (atP : nodes[i]? = some p) (atUp : nodes[parent i]? = some up) (less : lt p up = true)
    (bounded : ∀ root, nodes[0]? = some root → lt p root = false)
    (whole : i % 2 = 0 ∨ i + 1 < nodes.length) (shape : Shape heap fun j => nodes[j]?)
    (linked : ∀ j, j ≠ i → (j = 0 ∨ parent j ≠ i) → Linked heap (fun j => nodes[j]?) j) :
    ∃ settled, heapUpPercolate lt fuel p up heap = .ok settled ∧
      Risen heap settled nodes (siftUp lt fuel i nodes) := by
  have distinct := @shape.distinct
  have leftLink := shape.left atP
  have rightLink := shape.right atP
  have rising : Rising (heap.storePrev (heap.right p) (some up)) (fun j => nodes[j]?) i up
      (heap.left p) := by
    refine ⟨?_, ?_, ?_, ?_⟩
    · cases heap.right p with
      | none => exact shape
      | some child => exact shape.setPrev _ _
    · intro j apart elsewhere node here
      rw [← linked j apart elsewhere node here]
      cases known : heap.right p with
      | none => rfl
      | some child =>
          rw [Heap.storePrev, Heap.setPrev_prev, if_neg]
          rintro rfl
          have same := distinct here (rightLink.symm.trans known)
          unfold parent at elsewhere
          omega
    · intro j node deeper family here unwritten
      have right : j = 2 * i + 2 := by
        by_contra other
        have left : j = 2 * i + 1 := by unfold parent at family; omega
        subst left
        exact unwritten (here.symm.trans leftLink.symm)
      subst right
      rw [rightLink.trans here]
      simp [Heap.storePrev, Heap.setPrev_prev]
    · intro node child
      exact ⟨2 * i + 1, by omega, by unfold parent; omega, leftLink.symm.trans child⟩
  rcases percolateLoop_spec fuel enough inner atP atUp less bounded whole rising with
    ⟨settled, result, risen⟩
  refine ⟨settled, ?_, risen.shape, risen.linked, risen.size.trans ?_, ?_⟩
  · rw [heapUpPercolate]
    exact result
  · cases heap.right p <;> rfl
  · intro node absent
    rw [risen.outside node absent]
    cases known : heap.right p with
    | none => rfl
    | some child =>
        rw [Heap.storePrev, Heap.setPrev_prev, if_neg]
        rintro rfl
        exact absent (List.mem_of_getElem? (rightLink.symm.trans known))

end Loop

end NgrCore.IntrusiveHeap
