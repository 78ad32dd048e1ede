import NgrCore.IntrusiveHeap.Shape

/-!
Owns `__heap_down_sink`: on the nodes in level order it does what `siftDown` does,
and it repairs every `_Prev` below the place it starts from. The `_Prev` of the
node that ends up at that place is left to the caller.
-/

namespace NgrCore.IntrusiveHeap

open NgrCore.Library
open NgrCore.Library.BinaryHeap (parent leastChild precedes exchange siftDown)

variable {heap : Heap} {slot : Nat → Option Addr} {start i : Nat} {pp : Slot} {up : Option Addr}

/-- At the head of the loop: every `_Prev` is right except those of the node at
the start, of the sinking node, and of its children, which still point to the
sinking node's parent once it has sunk. -/
structure Sinking (heap : Heap) (slot : Nat → Option Addr) (start i : Nat) (up : Option Addr) :
    Prop where
  shape : Shape heap slot
  below : start ≤ i
  linked : ∀ j, j ≠ start → j ≠ i → (j = 0 ∨ parent j ≠ i) → Linked heap slot j
  upper : i ≠ start → up = above slot i
  children : i ≠ start → ∀ j node, 0 < j → parent j = i → slot j = some node →
    heap.prev node = up

/-- The sinking node and a child change places, and the other child is linked to
the one that rises. -/
theorem Sinking.step {c : Nat} {p child : Addr} {next : Heap}
    (sinking : Sinking heap slot start i up) (positive : 0 < c) (isChild : parent c = i)
    (atP : slot i = some p)
    (atChild : slot c = some child) (shape : Shape next (exchanged slot i c))
    (sibling : ∀ j node, j ≠ c → 0 < j → parent j = i → slot j = some node →
      next.prev node = some child)
    (others : ∀ j node, slot j = some node → j = c ∨ j = 0 ∨ parent j ≠ i →
      next.prev node = heap.prev node) :
    Sinking next (exchanged slot i c) start c (some child) := by
  have lower : i < c := by unfold parent at isChild; omega
  rcases sinking with ⟨before, below, linked, upper, children⟩
  refine ⟨shape, by omega, ?_, ?_, ?_⟩
  · intro j apart other outside node here
    by_cases risen : j = i
    · subst risen
      have higher : parent j < j := by unfold parent; omega
      have stands : slot c = some node := by simpa [exchanged] using here
      rw [others c node stands (.inl rfl), children apart c node positive isChild stands,
        upper apart]
      simp [above, exchanged, Nat.ne_of_lt higher, show parent j ≠ c by omega]
    · have stands : slot j = some node := by simpa [exchanged, risen, other] using here
      by_cases family : 0 < j ∧ parent j = i
      · rw [sibling j node other family.1 family.2 stands]
        simp [above, exchanged, family.2, atChild, Nat.ne_of_gt family.1]
      · have elsewhere : j = 0 ∨ parent j ≠ i := by omega
        rw [others j node stands (.inr elsewhere), linked j apart risen elsewhere node stands]
        unfold above exchanged
        grind
  · intro _
    simp [above, isChild, exchanged, Nat.ne_of_gt positive, atChild]
  · intro _ j node inner grandchild here
    have deeper : c < j := by unfold parent at grandchild; omega
    have stands : slot j = some node := by
      simpa [exchanged, show j ≠ i by omega, show j ≠ c by omega] using here
    have elsewhere : parent j ≠ i := by omega
    rw [others j node stands (.inr (.inr elsewhere)),
      linked j (by omega) (by omega) (.inr elsewhere) node stands]
    simp [above, grandchild, atChild, show j ≠ 0 by omega]

theorem Sinking.rest {p : Addr} {next : Heap} (sinking : Sinking heap slot start i up)
    (atP : slot i = some p) (last : next.prev p = up)
    (children : ∀ j node, 0 < j → parent j = i → slot j = some node → next.prev node = some p)
    (others : ∀ j node, slot j = some node → j ≠ i → (j = 0 ∨ parent j ≠ i) →
      next.prev node = heap.prev node) :
    ∀ j, j ≠ start → Linked next slot j := by
  intro j apart node here
  by_cases stopped : j = i
  · subst stopped
    rw [atP] at here
    cases here
    exact last.trans (sinking.upper apart)
  · by_cases family : 0 < j ∧ parent j = i
    · rw [children j node family.1 family.2 here]
      simp [above, family.2, atP, Nat.ne_of_gt family.1]
    · have elsewhere : j = 0 ∨ parent j ≠ i := by omega
      rw [others j node here stopped elsewhere]
      exact sinking.linked j apart stopped elsewhere node here

/-! ### The loop -/

section Loop

variable {lt : Addr → Addr → Bool} {nodes : List Addr} {p l r : Addr}

theorem siftDown_right (fuel : Nat) (atP : nodes[i]? = some p) (atL : nodes[2 * i + 1]? = some l)
    (atR : nodes[2 * i + 2]? = some r) (least : lt r l = true) (less : lt r p = true) :
    siftDown lt (fuel + 1) i nodes =
      siftDown lt fuel (2 * i + 2) (exchange nodes i (2 * i + 2)) := by
  simp [siftDown, leastChild, precedes, atP, atL, atR, least, less]

theorem siftDown_left (fuel : Nat) (atP : nodes[i]? = some p) (atL : nodes[2 * i + 1]? = some l)
    (least : precedes lt nodes (2 * i + 2) (2 * i + 1) = false) (less : lt l p = true) :
    siftDown lt (fuel + 1) i nodes =
      siftDown lt fuel (2 * i + 1) (exchange nodes i (2 * i + 1)) := by
  rw [siftDown, leastChild, least]
  simp [precedes, atP, atL, less]

theorem siftDown_stop (fuel : Nat) (rests : precedes lt nodes (leastChild lt nodes i) i = false) :
    siftDown lt (fuel + 1) i nodes = nodes := by
  rw [siftDown, rests]
  simp

structure Sunk (heap settled : Heap) (before after : List Addr) (start : Nat) : Prop where
  shape : Shape settled fun j => after[j]?
  linked : ∀ j, j ≠ start → Linked settled (fun j => after[j]?) j
  size : settled.size = heap.size
  outside : ∀ node, node ∉ before → settled.prev node = heap.prev node

theorem Sinking.sunk {settled : Heap} (sinking : Sinking heap (fun j => nodes[j]?) start i up)
    (atP : nodes[i]? = some p) (root : settled.root = heap.root)
    (left : settled.left = heap.left) (right : settled.right = heap.right)
    (size : settled.size = heap.size) (last : settled.prev p = up)
    (children : ∀ j node, j = 2 * i + 1 ∨ j = 2 * i + 2 → nodes[j]? = some node →
      settled.prev node = some p)
    (others : ∀ node, node ≠ p → nodes[2 * i + 1]? ≠ some node → nodes[2 * i + 2]? ≠ some node →
      settled.prev node = heap.prev node) : Sunk heap settled nodes nodes start := by
  have distinct := @sinking.shape.distinct
  refine ⟨⟨?_, ?_, ?_, sinking.shape.distinct⟩, ?_, size, ?_⟩
  · rw [root]
    exact sinking.shape.root
  · rw [left]
    exact sinking.shape.left
  · rw [right]
    exact sinking.shape.right
  · apply sinking.rest atP last
    · intro j node positive family here
      exact children j node (by unfold parent at family; omega) here
    · intro j node here apart elsewhere
      apply others node
      · rintro rfl
        exact apart (distinct here atP)
      · intro again
        have same := distinct here again
        unfold parent at elsewhere
        omega
      · intro again
        have same := distinct here again
        unfold parent at elsewhere
        omega
  · intro node absent
    exact others node (fun same => absent (same ▸ List.mem_of_getElem? atP))
      (fun here => absent (List.mem_of_getElem? here))
      (fun here => absent (List.mem_of_getElem? here))

theorem Sunk.trans {middle settled : Heap} {between after : List Addr}
    (sunk : Sunk middle settled between after start) (size : middle.size = heap.size)
    (perm : between.Perm nodes)
    (outside : ∀ node, node ∉ nodes → middle.prev node = heap.prev node) :
    Sunk heap settled nodes after start :=
  ⟨sunk.shape, sunk.linked, sunk.size.trans size, fun node absent =>
    (sunk.outside node fun member => absent (perm.mem_iff.mp member)).trans
      (outside node absent)⟩

/-- One round that exchanges the sinking node with a child: the pointer to the
place and the `_Prev` of the other child are written. -/
theorem Sinking.exchange {c : Nat} {child : Addr} {swapped next : Heap}
    (sinking : Sinking heap (fun j => nodes[j]?) start i up)
    (cursor : Cursor (fun j => nodes[j]?) i pp) (positive : 0 < c) (isChild : parent c = i)
    (atP : nodes[i]? = some p)
    (atChild : nodes[c]? = some child)
    (shape : ShapeBut swapped (exchanged (fun j => nodes[j]?) i c) i)
    (next_eq : next = swapped.store pp (some child))
    (sibling : ∀ j node, j ≠ c → j = 2 * i + 1 ∨ j = 2 * i + 2 → nodes[j]? = some node →
      swapped.prev node = some child)
    (others : ∀ j node, nodes[j]? = some node → j = c ∨ j ≠ 2 * i + 1 ∧ j ≠ 2 * i + 2 →
      swapped.prev node = heap.prev node) :
    Sinking next (fun j => (BinaryHeap.exchange nodes i c)[j]?) start c (some child) := by
  have first : i < nodes.length := (List.getElem?_eq_some_iff.mp atP).1
  have second : c < nodes.length := (List.getElem?_eq_some_iff.mp atChild).1
  have lower : i < c := by unfold parent at isChild; omega
  have moved : exchanged (fun j => nodes[j]?) i c i = some child := by
    simp [exchanged, atChild]
  rw [slots_exchange first second, next_eq]
  apply sinking.step positive isChild atP atChild
  · rw [← moved]
    exact shape.store (cursor.congr fun j before => exchanged_before before lower)
  · intro j node other positive family here
    rw [Heap.store_prev]
    exact sibling j node other (by unfold parent at family; omega) here
  · intro j node here elsewhere
    rw [Heap.store_prev]
    exact others j node here (by unfold parent at elsewhere isChild; omega)

theorem heapDownSink_spec (lt : Addr → Addr → Bool) (p : Addr) (fuel : Nat) :
    ∀ {nodes : List Addr} {heap : Heap} {i : Nat} {pp : Slot} {up : Option Addr},
      nodes.length ≤ i + fuel → nodes[i]? = some p → Cursor (fun j => nodes[j]?) i pp →
      Sinking heap (fun j => nodes[j]?) start i up →
      ∃ settled, heapDownSink lt p fuel pp up heap = .ok settled ∧
        Sunk heap settled nodes (siftDown lt fuel i nodes) start := by
  induction fuel with
  | zero =>
      intro nodes heap i pp up enough atP
      exact absurd (List.getElem?_eq_some_iff.mp atP).1 (by omega)
  | succ fuel inductionHypothesis =>
      intro nodes heap i pp up enough atP cursor sinking
      have leftLink := sinking.shape.left atP
      have rightLink := sinking.shape.right atP
      have distinct := @sinking.shape.distinct
      rw [heapDownSink, leftLink, rightLink]
      cases atL : nodes[2 * i + 1]? with
      | none =>
          have short := List.getElem?_eq_none_iff.mp atL
          have atR : nodes[2 * i + 2]? = none := List.getElem?_eq_none_iff.mpr (by omega)
          rw [siftDown_stop fuel (by simp [leastChild, precedes, atL])]
          refine ⟨_, rfl, sinking.sunk atP rfl rfl rfl rfl ?_ ?_ ?_⟩
          · simp [Heap.setPrev_prev]
          · grind
          · grind [Heap.setPrev_prev]
      | some l =>
          have lApart : l ≠ p := by
            rintro rfl
            have same := distinct atL atP
            omega
          have leftInside := (List.getElem?_eq_some_iff.mp atL).1
          have inside : i < nodes.length := by omega
          have leftParent : parent (2 * i + 1) = i := by unfold parent; omega
          have sinks {next : Heap} (size : next.size = heap.size)
              (outside : ∀ node, node ∉ nodes → next.prev node = heap.prev node) {c : Nat}
              {child : Addr} {pp' : Slot} (lower : i < c) (atChild : nodes[c]? = some child)
              (cursor' : Cursor (fun j => (BinaryHeap.exchange nodes i c)[j]?) c pp')
              (sinking' : Sinking next (fun j => (BinaryHeap.exchange nodes i c)[j]?) start c
                (some child)) :
              ∃ settled, heapDownSink lt p fuel pp' (some child) next = .ok settled ∧
                Sunk heap settled nodes
                  (siftDown lt fuel c (BinaryHeap.exchange nodes i c)) start := by
            have inner := (List.getElem?_eq_some_iff.mp atChild).1
            have atP' : (BinaryHeap.exchange nodes i c)[c]? = some p := by
              rw [BinaryHeap.getElem?_exchange inside inner, if_neg (by omega), if_pos rfl, atP]
            rcases inductionHypothesis (by rw [BinaryHeap.exchange_length]; omega) atP' cursor'
              sinking' with ⟨settled, result, sunk⟩
            exact ⟨settled, result, sunk.trans size (BinaryHeap.exchange_perm _ _ _) outside⟩
          cases atR : nodes[2 * i + 2]? with
          | none =>
              have least : precedes lt nodes (2 * i + 2) (2 * i + 1) = false := by
                simp [precedes, atR]
              by_cases less : lt l p = true
              · rw [siftDown_left fuel atP atL least less]
                simp only [less, if_true]
                refine sinks ?_ ?_ (by omega) atL ?_ ?_
                · simp
                · simp
                · apply Cursor.left
                  rw [BinaryHeap.getElem?_exchange inside leftInside, if_pos rfl, atL]
                · refine sinking.exchange cursor (by omega) leftParent atP atL
                    (sinking.shape.swapLeft atP atL) rfl ?_ ?_
                  · grind
                  · simp
              · have rests : precedes lt nodes (leastChild lt nodes i) i = false := by
                  rw [leastChild, least]
                  simp [precedes, atL, atP, less]
                rw [siftDown_stop fuel rests]
                simp only [less, Bool.false_eq_true, if_false]
                refine ⟨_, rfl, sinking.sunk atP rfl rfl rfl rfl ?_ ?_ ?_⟩
                · simp [Heap.setPrev_prev]
                · grind [Heap.setPrev_prev]
                · grind [Heap.setPrev_prev]
          | some r =>
              have rightInside := (List.getElem?_eq_some_iff.mp atR).1
              have rightParent : parent (2 * i + 2) = i := by unfold parent; omega
              have apart : l ≠ r := by
                rintro rfl
                have same := distinct atL atR
                omega
              have stops (rests : precedes lt nodes (leastChild lt nodes i) i = false) :
                  Sunk heap (((heap.setPrev r (some p)).setPrev l (some p)).setPrev p up) nodes
                    (siftDown lt (fuel + 1) i nodes) start := by
                rw [siftDown_stop fuel rests]
                refine sinking.sunk atP rfl rfl rfl rfl ?_ ?_ ?_
                · simp [Heap.setPrev_prev]
                · grind [Heap.setPrev_prev]
                · grind [Heap.setPrev_prev]
              simp only
              by_cases least : lt r l = true
              · by_cases less : lt r p = true
                · rw [siftDown_right fuel atP atL atR least less]
                  simp only [least, less, if_true]
                  refine sinks ?_ ?_ (by omega) atR ?_ ?_
                  · simp
                  · intro node absent
                    rw [Heap.store_prev, Heap.setPrev_prev, if_neg, swapWithRightChild_prev]
                    rintro rfl
                    exact absent (List.mem_of_getElem? atL)
                  · apply Cursor.right
                    rw [BinaryHeap.getElem?_exchange inside rightInside, if_pos rfl, atR]
                  · refine sinking.exchange cursor (by omega) rightParent atP atR
                      ((sinking.shape.swapRight atP atR).setPrev l (some r)) rfl ?_ ?_
                    · grind [Heap.setPrev_prev]
                    · intro j node here elsewhere
                      rw [Heap.setPrev_prev, if_neg, swapWithRightChild_prev]
                      rintro rfl
                      have same := distinct here atL
                      omega
                · simp only [least, less, if_true, Bool.false_eq_true, if_false]
                  refine ⟨_, rfl, stops ?_⟩
                  simp [leastChild, precedes, atL, atR, atP, least, less]
              · have second : precedes lt nodes (2 * i + 2) (2 * i + 1) = false := by
                  simp [precedes, atL, atR, least]
                by_cases less : lt l p = true
                · rw [siftDown_left fuel atP atL second less]
                  simp only [least, less, if_true, Bool.false_eq_true, if_false]
                  refine sinks ?_ ?_ (by omega) atL ?_ ?_
                  · simp
                  · intro node absent
                    rw [Heap.store_prev, Heap.setPrev_prev, if_neg, swapWithLeftChild_prev]
                    rintro rfl
                    exact absent (List.mem_of_getElem? atR)
                  · apply Cursor.left
                    rw [BinaryHeap.getElem?_exchange inside leftInside, if_pos rfl, atL]
                  · refine sinking.exchange cursor (by omega) leftParent atP atL
                      ((sinking.shape.swapLeft atP atL).setPrev r (some l)) rfl ?_ ?_
                    · intro j node other family here
                      have right : j = 2 * i + 2 := by omega
                      rw [right, atR] at here
                      cases here
                      simp [Heap.setPrev_prev]
                    · intro j node here elsewhere
                      rw [Heap.setPrev_prev, if_neg, swapWithLeftChild_prev]
                      rintro rfl
                      have same := distinct here atR
                      omega
                · simp only [least, less, Bool.false_eq_true, if_false]
                  refine ⟨_, rfl, stops ?_⟩
                  rw [leastChild, second]
                  simp [precedes, atL, atP, less]

end Loop

end NgrCore.IntrusiveHeap
