import NgrCore.IntrusiveHeap.Path
import NgrCore.IntrusiveHeap.Percolate
import NgrCore.IntrusiveHeap.Sink

/-!
Owns `_M_pop` and `_M_remove`: on the nodes in level order they are the removal of
the first element and of any element from a binary heap, and the node that leaves
has a null `_Prev`.
-/

namespace NgrCore.IntrusiveHeap

open NgrCore.Library
open NgrCore.Library.BinaryHeap (parent precedes siftDown siftUp removeAt settle Ordered WeakOrder)

variable {lt : Addr → Addr → Bool} {heap : Heap} {slot : Nat → Option Addr} {i : Nat} {pp : Slot}
  {nodes front : List Addr} {p node leaf : Addr}

/-- The nodes outside have a null `_Prev`. -/
def Idle (heap : Heap) (nodes : List Addr) : Prop :=
  ∀ node, node ∉ nodes → heap.prev node = none

theorem Shape.clear (shape : Shape heap slot) (cursor : Cursor slot i pp) :
    Shape (heap.store pp none) fun j => if j = i then none else slot j := by
  have but : ShapeBut heap (fun j => if j = i then none else slot j) i := by
    have distinct := @shape.distinct
    have left := @shape.left
    have right := @shape.right
    refine ⟨fun inner => ?_, fun here other => ?_, fun here other => ?_, fun first second => ?_⟩
    · rw [if_neg (Ne.symm inner)]
      exact shape.root
    · grind
    · grind
    · split at first <;> split at second <;> grind
  have stored := but.store (cursor.congr fun j before => if_neg (by omega))
  rwa [if_pos rfl] at stored

theorem slots_front (front : List Addr) (leaf : Addr) :
    (fun j => if j = front.length then none else (front ++ [leaf])[j]?) =
      fun j => front[j]? := by
  funext j
  split
  · rename_i same
    rw [same, List.getElem?_eq_none (Nat.le_refl _)]
  · rename_i apart
    rcases Nat.lt_or_gt_of_ne apart with inside | outside
    · rw [List.getElem?_append_left inside]
    · rw [List.getElem?_eq_none (by simp; omega),
        List.getElem?_eq_none (by omega)]

/-- After `__remove_least_leaf`. -/
structure Cleared (before heap : Heap) (front : List Addr) (leaf : Addr) : Prop where
  shape : Shape heap fun j => front[j]?
  prev : heap.prev = before.prev
  size : heap.size = front.length + 1

theorem Represents.cleared (represents : Represents heap (front ++ [leaf])) :
    ∃ next, leastLeaf heap = .ok (some leaf, next) ∧ Cleared heap next front leaf := by
  have size : heap.size = front.length + 1 := by simpa using represents.size
  have occupied : ∀ j, j < heap.size → (front ++ [leaf])[j]? ≠ none := by
    intro j inside
    rw [List.getElem?_eq_getElem (by simpa [size] using inside)]
    simp
  rcases leastLeaf_spec represents.shape (by omega) occupied with ⟨last, reached, result⟩
  have position : heap.size - 1 = front.length := by omega
  rw [position] at reached result
  refine ⟨_, by simpa using result, ?_, by simp, by simp [size]⟩
  have shape := represents.shape.clear reached
  rwa [slots_front] at shape

theorem Shape.replace (shape : Shape heap fun j => front[j]?) (here : front[i]? = some node)
    (fresh : leaf ∉ front) :
    ShapeBut ((heap.setRight leaf (heap.right node)).setLeft leaf (heap.left node))
      (fun j => (front.set i leaf)[j]?) i := by
  have inside : i < front.length := (List.getElem?_eq_some_iff.mp here).1
  have distinct := @shape.distinct
  have position : ∀ j, (front.set i leaf)[j]? = if i = j then some leaf else front[j]? := by
    intro j
    rw [List.getElem?_set]
    simp [inside]
  have outside : ∀ j, front[j]? ≠ some leaf := fun j member => fresh (List.mem_of_getElem? member)
  have leftLink := shape.left here
  have rightLink := shape.right here
  constructor
  · intro inner
    rw [position, if_neg inner]
    exact shape.root
  · intro j other placed apart
    rw [position] at placed ⊢
    rw [Heap.setLeft_left, if_neg (Ne.symm apart)]
    by_cases same : i = j
    · rw [if_pos same] at placed
      rw [if_pos (Option.some.inj placed).symm, leftLink, same]
    · rw [if_neg same] at placed
      rw [if_neg (fun again : other = leaf => outside j (again ▸ placed))]
      exact shape.left placed
  · intro j other placed apart
    rw [position] at placed ⊢
    rw [if_neg (Ne.symm apart), Heap.setLeft_right, Heap.setRight_right]
    by_cases same : i = j
    · rw [if_pos same] at placed
      rw [if_pos (Option.some.inj placed).symm, rightLink, same]
    · rw [if_neg same] at placed
      rw [if_neg (fun again : other = leaf => outside j (again ▸ placed))]
      exact shape.right placed
  · intro j k other first second
    rw [position] at first second
    grind

/-- The place's node is the last leaf, and every `_Prev` away from the place is
right. -/
structure Replaced (heap : Heap) (front : List Addr) (i : Nat) (leaf : Addr) : Prop where
  shape : Shape heap fun j => (front.set i leaf)[j]?
  linked : ∀ j, j ≠ i → (j = 0 ∨ parent j ≠ i) → Linked heap (fun j => (front.set i leaf)[j]?) j

theorem Represents.replaced {cleared : Heap} (represents : Represents heap (front ++ [leaf]))
    (afterwards : Cleared heap cleared front leaf) (here : front[i]? = some node)
    (cursor : Cursor (fun j => front[j]?) i pp) (size : Nat) :
    Replaced ({((cleared.setRight leaf (cleared.right node)).setLeft leaf (cleared.left node)) with
      size := size }.store pp (some leaf)) front i leaf := by
  have inside : i < front.length := (List.getElem?_eq_some_iff.mp here).1
  have fresh : leaf ∉ front := by
    intro member
    rcases List.getElem?_of_mem member with ⟨j, atJ⟩
    have bounded := (List.getElem?_eq_some_iff.mp atJ).1
    have inner : (front ++ [leaf])[j]? = some leaf := by
      rw [List.getElem?_append_left bounded, atJ]
    have same : j = front.length := represents.shape.distinct inner (by simp)
    omega
  have replaced := afterwards.shape.replace here fresh
  have resized : ShapeBut {((cleared.setRight leaf (cleared.right node)).setLeft leaf
      (cleared.left node)) with size := size } (fun j => (front.set i leaf)[j]?) i :=
    ⟨replaced.root, replaced.left, replaced.right, replaced.distinct⟩
  constructor
  · have stored := resized.store (cursor.congr fun j before =>
      List.getElem?_set_ne (by omega))
    rwa [List.getElem?_set_self inside] at stored
  · intro j apart elsewhere other placed
    have placed : front[j]? = some other := by
      rw [← placed]
      exact (List.getElem?_set_ne (Ne.symm apart)).symm
    have bounded := (List.getElem?_eq_some_iff.mp placed).1
    have link := represents.linked j other ((List.getElem?_append_left bounded).trans placed)
    rw [Heap.store_prev]
    change cleared.prev other = _
    rw [afterwards.prev, link]
    unfold above
    split
    · rfl
    · rename_i inner
      have higher : parent j < j := by unfold parent; omega
      exact (List.getElem?_append_left (by omega)).trans
        (List.getElem?_set_ne (by omega)).symm

/-- The loop of `__heap_down_sink` started at the place. -/
theorem Replaced.sinking (replaced : Replaced heap front i leaf) (up : Option Addr) :
    Sinking heap (fun j => (front.set i leaf)[j]?) i i up :=
  ⟨replaced.shape, Nat.le_refl _, fun j apart _ elsewhere => replaced.linked j apart elsewhere,
    fun apart => absurd rfl apart, fun apart => absurd rfl apart⟩

/-- The `_Prev` that the loop left to its caller is written. -/
theorem Sunk.finish {settled : Heap} {before after : List Addr} {top : Addr} {up : Option Addr}
    (sunk : Sunk heap settled before after i) (perm : after.Perm before)
    (atTop : after[i]? = some top) (upper : up = above (fun j => after[j]?) i) :
    Risen heap (settled.setPrev top up) before after := by
  have distinct := @sunk.shape.distinct
  refine ⟨sunk.shape.setPrev top up, ?_, sunk.size, ?_⟩
  · intro j node here
    rw [Heap.setPrev_prev]
    split
    · rename_i same
      subst same
      rw [distinct here atTop]
      exact upper
    · rename_i apart
      apply sunk.linked j _ node here
      rintro rfl
      exact apart (Option.some.inj (here.symm.trans atTop))
  · intro node absent
    rw [Heap.setPrev_prev, if_neg]
    · exact sunk.outside node absent
    · rintro rfl
      exact absent (perm.mem_iff.mp (List.mem_of_getElem? atTop))

theorem Replaced.sink (lt : Addr → Addr → Bool) (replaced : Replaced heap front i leaf)
    (inside : i < front.length) (size : heap.size = front.length)
    (cursor : Cursor (fun j => front[j]?) i pp)
    {up : Option Addr} (upper : up = above (fun j => front[j]?) i) :
    ∃ settled top, heapDownSink lt leaf heap.size pp up heap = .ok settled ∧
      settled.load pp = some top ∧
      Risen heap (settled.setPrev top up) (front.set i leaf)
        (siftDown lt (front.set i leaf).length i (front.set i leaf)) := by
  have kept : ∀ j, j < i → (front.set i leaf)[j]? = front[j]? := fun j before =>
    List.getElem?_set_ne (by omega)
  have cursor' : Cursor (fun j => (front.set i leaf)[j]?) i pp := cursor.congr kept
  have length : (front.set i leaf).length = heap.size := by rw [List.length_set, size]
  rcases heapDownSink_spec lt leaf heap.size (by omega) (List.getElem?_set_self inside) cursor'
    (replaced.sinking up) with ⟨settled, result, sunk⟩
  rw [← length] at sunk
  have same : ∀ j, j < i →
      (siftDown lt (front.set i leaf).length i (front.set i leaf))[j]? = front[j]? :=
    fun j before => (BinaryHeap.siftDown_before _ _ _ before).trans (kept j before)
  have cursor'' : Cursor
      (fun j => (siftDown lt (front.set i leaf).length i (front.set i leaf))[j]?) i pp :=
    cursor.congr same
  have occupied := List.getElem?_eq_getElem (show i <
    (siftDown lt (front.set i leaf).length i (front.set i leaf)).length by simpa using inside)
  refine ⟨settled, _, result, (sunk.shape.load cursor'').trans occupied,
    sunk.finish (BinaryHeap.siftDown_perm _ _ _) occupied ?_⟩
  rw [upper]
  unfold above
  split
  · rfl
  · rename_i inner
    have higher : parent i < i := by unfold parent; omega
    exact (same _ higher).symm

theorem Risen.represents {settled : Heap} {before after : List Addr}
    (risen : Risen heap settled before after) (size : heap.size = after.length) :
    Represents settled after :=
  ⟨risen.shape, risen.size.trans size, risen.linked⟩

theorem Represents.retire (represents : Represents heap nodes) (absent : node ∉ nodes) :
    Represents (heap.setPrev node none) nodes := by
  refine ⟨represents.shape.setPrev _ _, represents.size, ?_⟩
  intro j other here
  rw [Heap.setPrev_prev, if_neg, represents.linked j other here]
  rintro rfl
  exact absent (List.mem_of_getElem? here)

theorem Represents.nodup (represents : Represents heap nodes) : nodes.Nodup := by
  rw [List.nodup_iff_getElem?_ne_getElem?]
  intro j k before bounded same
  have occupied := List.getElem?_eq_getElem bounded
  have equal := represents.shape.distinct (same.trans occupied) occupied
  omega

/-- What is inside once a node gave its place to the last leaf. -/
theorem Represents.rest (represents : Represents heap (front ++ [leaf]))
    (here : front[i]? = some node) (other : Addr) :
    other ∈ front.set i leaf ↔ other ≠ node ∧ other ∈ front ++ [leaf] := by
  rcases List.getElem?_eq_some_iff.mp here with ⟨inside, rfl⟩
  have perm := BinaryHeap.set_last_perm front leaf inside
  have distinct := perm.nodup_iff.mpr represents.nodup
  rw [← perm.mem_iff, List.mem_cons]
  constructor
  · intro member
    refine ⟨?_, .inr member⟩
    rintro rfl
    exact (List.nodup_cons.mp distinct).1 member
  · rintro ⟨apart, same | member⟩
    · exact absurd same apart
    · exact member

theorem bind_ok {α β : Type} {first : Except Fault α} {value : α} {rest : α → Except Fault β}
    (known : first = .ok value) : (first >>= rest) = rest value := by
  rw [known]
  rfl

theorem pop_spec (represents : Represents heap nodes) (idle : Idle heap nodes) :
    ∃ next, pop lt heap = .ok next ∧ Represents next (removeAt lt nodes 0) ∧
      Idle next (removeAt lt nodes 0) := by
  rcases List.eq_nil_or_concat nodes with rfl | ⟨front, leaf, rfl⟩
  · refine ⟨{ heap with root := none, size := 0 }, ?_, ?_, idle⟩
    · rw [pop, if_pos (by simp [represents.size])]
    · exact ⟨⟨rfl, represents.shape.left, represents.shape.right, represents.shape.distinct⟩, rfl,
        represents.linked⟩
  rw [List.concat_eq_append] at represents idle ⊢
  have size : heap.size = front.length + 1 := by simpa using represents.size
  cases front with
  | nil =>
      refine ⟨{ heap with root := none, size := 0 }, ?_, ?_, ?_⟩
      · rw [pop, if_pos (by simp [size])]
      · simp only [removeAt, List.nil_append, List.getLast?_singleton, List.length_singleton,
          List.dropLast_singleton, if_true]
        constructor
        · constructor <;> simp
        · rfl
        · intro j node here
          simp at here
      · intro node _
        by_cases same : node = leaf
        · subst same
          exact represents.linked 0 node rfl
        · exact idle node (by simpa using same)
  | cons top others =>
      generalize known : top :: others = front at represents idle size ⊢
      have here : front[0]? = some top := by rw [← known]; rfl
      have inside : 0 < front.length := by rw [← known]; simp
      rcases represents.cleared with ⟨cleared, result, afterwards⟩
      have root : cleared.root = some top := afterwards.shape.root.trans here
      have replaced := represents.replaced afterwards here .root (cleared.size - 1)
      have resized := afterwards.size
      have sunk : ∃ settled top, heapDownSink lt leaf _ .root none _ = .ok settled ∧
          settled.load .root = some top ∧ Risen _ (settled.setPrev top none) _ _ :=
        replaced.sink lt inside (by simp [afterwards.size]) .root rfl
      rcases sunk with ⟨settled, risenTop, sinks, loads, risen⟩
      have after : removeAt lt (front ++ [leaf]) 0 =
          siftDown lt (front.set 0 leaf).length 0 (front.set 0 leaf) := by
        simp [BinaryHeap.removeAt_front leaf inside, settle]
      rw [after]
      refine ⟨settled.setPrev risenTop none, ?_, risen.represents ?_, ?_⟩
      · have occupied : heap.root ≠ none := by
          rw [represents.shape.root, List.getElem?_append_left inside, here]
          simp
        rw [pop, if_neg (by omega), if_neg occupied]
        refine (bind_ok result).trans ?_
        refine (bind_ok (show follow (some leaf) = .ok leaf from rfl)).trans ?_
        refine (bind_ok (show follow cleared.root = .ok top by rw [root]; rfl)).trans ?_
        refine (bind_ok sinks).trans ?_
        exact bind_ok (show follow (settled.load .root) = .ok risenTop by rw [loads]; rfl)
      · simp [afterwards.size]
      · intro node absent
        have outside : node ∉ front.set 0 leaf := fun member =>
          absent ((BinaryHeap.siftDown_perm _ _ _).mem_iff.mpr member)
        rw [risen.outside node outside, Heap.store_prev]
        change cleared.prev node = none
        rw [afterwards.prev]
        by_cases same : node = top
        · subst same
          exact represents.linked 0 node ((List.getElem?_append_left inside).trans here)
        · exact idle node fun member => outside ((represents.rest here node).mpr ⟨same, member⟩)

/-! ### Removal of a node -/

theorem Represents.guards (represents : Represents heap nodes) (here : nodes[i]? = some node) :
    ¬(heap.prev node = none ∧ some node ≠ heap.root) ∧ heap.root ≠ none ∧ heap.size ≠ 0 := by
  have inside := (List.getElem?_eq_some_iff.mp here).1
  have root := represents.shape.root
  rw [List.getElem?_eq_getElem (show 0 < nodes.length by omega)] at root
  refine ⟨?_, by simp [root], by rw [represents.size]; omega⟩
  rintro ⟨alone, lower⟩
  have link := represents.linked i node here
  rw [alone] at link
  unfold above at link
  split at link
  · rename_i top
    subst top
    exact lower (here.symm.trans represents.shape.root.symm)
  · have higher : parent i ≤ i := by unfold parent; omega
    have occupied := List.getElem?_eq_getElem (show parent i < nodes.length by omega)
    exact absurd (link.trans occupied) (by simp)

theorem remove_last (represents : Represents heap (front ++ [leaf]))
    (idle : Idle heap (front ++ [leaf])) :
    ∃ next, remove lt heap leaf = .ok (true, next) ∧ Represents next front ∧ Idle next front := by
  have here : (front ++ [leaf])[front.length]? = some leaf := by simp
  rcases represents.guards here with ⟨known, root, size⟩
  rcases represents.cleared with ⟨cleared, result, afterwards⟩
  have distinct := represents.nodup
  have fresh : leaf ∉ front := by
    intro member
    exact (List.nodup_append.mp distinct).2.2 leaf member leaf (by simp) rfl
  have rest : Represents { cleared with size := cleared.size - 1 } front := by
    refine ⟨⟨afterwards.shape.root, afterwards.shape.left, afterwards.shape.right,
      afterwards.shape.distinct⟩, by simp [afterwards.size], ?_⟩
    intro j node here
    have inside := (List.getElem?_eq_some_iff.mp here).1
    change cleared.prev node = _
    rw [afterwards.prev, represents.linked j node ((List.getElem?_append_left inside).trans here)]
    unfold above
    split
    · rfl
    · exact List.getElem?_append_left (by unfold parent; omega)
  refine ⟨{ cleared with size := cleared.size - 1 }.setPrev leaf none, ?_, rest.retire fresh, ?_⟩
  · rw [remove, if_neg known, if_neg root, if_neg size]
    refine (bind_ok result).trans ?_
    simp only [if_true]
    rfl
  · intro node absent
    rw [Heap.setPrev_prev]
    split
    · rfl
    · rename_i apart
      change cleared.prev node = none
      rw [afterwards.prev]
      exact idle node (by simp [absent, apart])

/-- What follows once the last leaf found its place. -/
theorem Risen.retired {settled : Heap} {after : List Addr}
    (risen : Risen heap settled (front.set i leaf) after)
    (perm : after.Perm (front.set i leaf)) (size : heap.size = front.length) {before : Heap}
    (prev : heap.prev = before.prev) (represents : Represents before (front ++ [leaf]))
    (idle : Idle before (front ++ [leaf])) (here : front[i]? = some node) :
    Represents (settled.setPrev node none) after ∧ Idle (settled.setPrev node none) after := by
  have gone : node ∉ after := fun member =>
    ((represents.rest here node).mp (perm.mem_iff.mp member)).1 rfl
  have length : heap.size = after.length := by rw [size, perm.length_eq, List.length_set]
  refine ⟨(risen.represents length).retire gone, ?_⟩
  intro other absent
  rw [Heap.setPrev_prev]
  split
  · rfl
  · rename_i apart
    have outside : other ∉ front.set i leaf := fun member => absent (perm.mem_iff.mpr member)
    rw [risen.outside other outside, prev]
    exact idle other fun member => outside ((represents.rest here other).mpr ⟨apart, member⟩)

/-- A last leaf that is less than the node above the place is not the only child
there. -/
theorem Ordered.sibling {above : Addr} (ordered : Ordered lt (front ++ [leaf]))
    (inside : i < front.length) (atAbove : front[parent i]? = some above)
    (less : lt leaf above = true) : i % 2 = 0 ∨ i + 1 < front.length := by
  by_contra neither
  have last : front.length = i + 1 := by omega
  have family : parent front.length = parent i := by unfold parent; omega
  have higher : parent i < front.length := by unfold parent; omega
  have order := BinaryHeap.precedes_eq_false.mp (ordered front.length (by omega)) leaf above
    (by simp) (by rw [family, List.getElem?_append_left higher, atAbove])
  rw [order] at less
  cases less

/-- The end of `_M_remove`, where the last leaf sinks. -/
theorem settleDown_spec (lt : Addr → Addr → Bool) (node : Addr)
    (replaced : Replaced heap front i leaf) (inside : i < front.length)
    (size : heap.size = front.length) (cursor : Cursor (fun j => front[j]?) i pp)
    {up : Option Addr} (upper : up = above (fun j => front[j]?) i)
    (stays : ¬(i ≠ 0 ∧ precedes lt (front.set i leaf) i (parent i) = true)) :
    ∃ settled, remove.settleDown lt heap leaf pp up node =
        .ok (true, settled.setPrev node none) ∧
      Risen heap settled (front.set i leaf) (settle lt i (front.set i leaf)) := by
  rcases replaced.sink lt inside size cursor upper with ⟨settled, top, sinks, loads, risen⟩
  refine ⟨settled.setPrev top up, ?_, ?_⟩
  · refine (bind_ok sinks).trans ?_
    exact bind_ok (show follow (settled.load pp) = .ok top by rw [loads]; rfl)
  · rw [settle, if_neg stays]
    exact risen

theorem remove_inner (weak : WeakOrder lt) (represents : Represents heap (front ++ [leaf]))
    (ordered : Ordered lt (front ++ [leaf])) (idle : Idle heap (front ++ [leaf]))
    (here : front[i]? = some node) :
    ∃ next, remove lt heap node = .ok (true, next) ∧
      Represents next (removeAt lt (front ++ [leaf]) i) ∧
      Idle next (removeAt lt (front ++ [leaf]) i) := by
  have inside := (List.getElem?_eq_some_iff.mp here).1
  have here' : (front ++ [leaf])[i]? = some node := (List.getElem?_append_left inside).trans here
  rcases represents.guards here' with ⟨known, root, size⟩
  rcases represents.cleared with ⟨cleared, result, afterwards⟩
  have other : leaf ≠ node := by
    rintro rfl
    have same : i = front.length := represents.shape.distinct here' (by simp)
    omega
  have link := represents.linked i node here'
  have sizeAfter := afterwards.size
  rw [BinaryHeap.removeAt_front leaf inside, remove, if_neg known, if_neg root, if_neg size]
  by_cases top : i = 0
  · subst top
    have replaced := represents.replaced afterwards here .root (cleared.size - 1)
    rcases settleDown_spec lt node replaced inside
      (by simp [sizeAfter]) .root rfl (by simp) with ⟨settled, finished, risen⟩
    have retired := risen.retired (BinaryHeap.settle_perm _ _) (by simp [sizeAfter])
      (by rw [Heap.store_prev]; exact afterwards.prev) represents idle here
    refine ⟨settled.setPrev node none, ?_, retired⟩
    refine (bind_ok result).trans ?_
    refine (if_neg (by simpa using other)).trans ?_
    refine (bind_ok (show follow (some leaf) = .ok leaf from rfl)).trans ?_
    have alone : cleared.prev node = none := by rw [afterwards.prev, link]; rfl
    simp only [Heap.setLeft_prev, Heap.setRight_prev, alone]
    exact finished
  · have higher : parent i < i := by unfold parent; omega
    have atUp := List.getElem?_eq_getElem (show parent i < front.length by omega)
    generalize front[parent i] = up at atUp
    have beneath : cleared.prev node = some up := by
      rw [afterwards.prev, link]
      simp only [above, top, if_false]
      exact (List.getElem?_append_left (by omega)).trans atUp
    have fresh : leaf ≠ up := by
      rintro rfl
      have same : parent i = front.length := represents.shape.distinct
        ((List.getElem?_append_left (by omega)).trans atUp) (by simp)
      omega
    have links : ((cleared.setRight leaf (cleared.right node)).setLeft leaf
        (cleared.left node)).right up = front[2 * parent i + 2]? := by
      rw [Heap.setLeft_right, Heap.setRight_right, if_neg (Ne.symm fresh)]
      exact afterwards.shape.right atUp
    have cursor := cursor_parent afterwards.shape.distinct top here atUp links
    have replaced := represents.replaced afterwards here cursor (cleared.size - 1)
    have atUp' : (front.set i leaf)[parent i]? = some up := by
      rw [List.getElem?_set_ne (by omega), atUp]
    have atLeaf : (front.set i leaf)[i]? = some leaf := List.getElem?_set_self inside
    by_cases less : lt leaf up = true
    · have moves : precedes lt (front.set i leaf) i (parent i) = true :=
        BinaryHeap.precedes_eq_true.mpr ⟨leaf, up, atLeaf, atUp', less⟩
      have bounded : ∀ root, (front.set i leaf)[0]? = some root → lt leaf root = false := by
        intro first atFirst
        rw [List.getElem?_set_ne (by omega)] at atFirst
        exact Ordered.root_le weak ordered ((List.getElem?_append_left (by omega)).trans atFirst)
          front.length (by simp)
      have whole := Ordered.sibling ordered inside atUp less
      rcases heapUpPercolate_spec (cleared.size - 1) (by omega) top atLeaf atUp' less
        bounded (by rwa [List.length_set]) replaced.shape replaced.linked with
        ⟨settled, finished, risen⟩
      rw [BinaryHeap.siftUp_fuel _ i i _ (by omega) (Nat.le_refl _)] at risen
      rw [settle, if_pos ⟨top, moves⟩]
      have retired := risen.retired (BinaryHeap.siftUp_perm _ _ _) (by simp [sizeAfter])
        (by rw [Heap.store_prev]; exact afterwards.prev) represents idle here
      refine ⟨settled.setPrev node none, ?_, retired⟩
      refine (bind_ok result).trans ?_
      refine (if_neg (by simpa using other)).trans ?_
      refine (bind_ok (show follow (some leaf) = .ok leaf from rfl)).trans ?_
      simp only [Heap.setLeft_prev, Heap.setRight_prev, beneath]
      refine (if_pos less).trans ?_
      refine (bind_ok ?_).trans rfl
      rw [Heap.store_size]
      exact finished
    · have stays : ¬(i ≠ 0 ∧ precedes lt (front.set i leaf) i (parent i) = true) := by
        rintro ⟨_, moves⟩
        rcases BinaryHeap.precedes_eq_true.mp moves with ⟨a, b, first, second, order⟩
        rw [atLeaf] at first
        rw [atUp'] at second
        cases first
        cases second
        exact less order
      have upper : some up = above (fun j => front[j]?) i := by simp [above, top, atUp]
      rcases settleDown_spec lt node replaced inside (by simp [sizeAfter]) cursor upper stays with
        ⟨settled, finished, risen⟩
      have retired := risen.retired (BinaryHeap.settle_perm _ _) (by simp [sizeAfter])
        (by rw [Heap.store_prev]; exact afterwards.prev) represents idle here
      refine ⟨settled.setPrev node none, ?_, retired⟩
      refine (bind_ok result).trans ?_
      refine (if_neg (by simpa using other)).trans ?_
      refine (bind_ok (show follow (some leaf) = .ok leaf from rfl)).trans ?_
      simp only [Heap.setLeft_prev, Heap.setRight_prev, beneath]
      refine (if_neg less).trans ?_
      exact finished

theorem remove_spec (weak : WeakOrder lt) (represents : Represents heap nodes)
    (ordered : Ordered lt nodes) (idle : Idle heap nodes) (node : Addr) :
    ∃ next, remove lt heap node = .ok ((BinaryHeap.remove lt nodes node).1, next) ∧
      Represents next (BinaryHeap.remove lt nodes node).2 ∧
      Idle next (BinaryHeap.remove lt nodes node).2 := by
  unfold BinaryHeap.remove
  by_cases member : node ∈ nodes
  · rw [if_pos member]
    have position : nodes.idxOf node < nodes.length := List.idxOf_lt_length_iff.mpr member
    have here : nodes[nodes.idxOf node]? = some node := by
      rw [List.getElem?_eq_getElem position, List.getElem_idxOf]
    generalize nodes.idxOf node = i at position here
    rcases List.eq_nil_or_concat nodes with rfl | ⟨front, leaf, rfl⟩
    · cases member
    rw [List.concat_eq_append] at represents ordered idle here ⊢
    by_cases inside : i < front.length
    · exact remove_inner weak represents ordered idle
        ((List.getElem?_append_left inside).symm.trans here)
    · have last : i = front.length := by simp at position; omega
      subst last
      have same : leaf = node := by simpa using here
      subst same
      simp only [BinaryHeap.removeAt_last]
      exact remove_last represents idle
  · rw [if_neg member]
    refine ⟨heap, ?_, represents, idle⟩
    rw [remove, if_pos]
    refine ⟨idle node member, fun root => member ?_⟩
    exact List.mem_of_getElem? (represents.shape.root.symm.trans root.symm)

end NgrCore.IntrusiveHeap
