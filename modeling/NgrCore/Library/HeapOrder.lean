import NgrCore.Library.BinaryHeap

/-!
Owns the order of binary heaps: no element is strictly less than its parent, for
any comparison that is a strict weak order. Insertion and removal keep it.
-/

namespace NgrCore.Library.BinaryHeap

variable {α : Type*}

/-- A strict weak order: "not greater" is transitive. -/
structure WeakOrder (lt : α → α → Bool) : Prop where
  asymm : ∀ {a b}, lt a b = true → lt b a = false
  trans : ∀ {a b c}, lt b a = false → lt c b = false → lt c a = false

def Ordered (lt : α → α → Bool) (elements : List α) : Prop :=
  ∀ j, 0 < j → precedes lt elements j (parent j) = false

variable {lt : α → α → Bool} {elements : List α} {i : Nat}

/-- What an exchange leaves at two positions is in order when the elements that
stood there before are. -/
theorem precedes_exchange {j m n : Nat} (first : i < elements.length)
    (second : j < elements.length)
    (order : ∀ a b, (if m = i then elements[j]? else if m = j then elements[i]?
        else elements[m]?) = some a →
      (if n = i then elements[j]? else if n = j then elements[i]? else elements[n]?) = some b →
      lt a b = false) : precedes lt (exchange elements i j) m n = false := by
  rw [precedes_eq_false]
  intro a b atM atN
  rw [getElem?_exchange first second] at atM atN
  exact order a b atM atN

/-- Ordered but for the element at a position and its parent. -/
structure UpOrder (lt : α → α → Bool) (elements : List α) (i : Nat) : Prop where
  others : ∀ j, 0 < j → j ≠ i → precedes lt elements j (parent j) = false
  below : ∀ j, 0 < j → parent j = i → 0 < i → precedes lt elements j (parent i) = false

/-- Ordered but for the element at a position and its children. -/
structure DownOrder (lt : α → α → Bool) (elements : List α) (i : Nat) : Prop where
  others : ∀ j, 0 < j → parent j ≠ i → precedes lt elements j (parent j) = false
  below : ∀ j, 0 < j → parent j = i → 0 < i → precedes lt elements j (parent i) = false

theorem UpOrder.exchange (weak : WeakOrder lt) (up : UpOrder lt elements i) (inner : i ≠ 0)
    (less : precedes lt elements i (parent i) = true) :
    UpOrder lt (exchange elements i (parent i)) (parent i) := by
  rcases precedes_eq_true.mp less with ⟨a, b, atI, atParent, before⟩
  have first : i < elements.length := (List.getElem?_eq_some_iff.mp atI).1
  have second : parent i < elements.length := (List.getElem?_eq_some_iff.mp atParent).1
  have above : parent i < i := by unfold parent; omega
  have after := weak.asymm before
  constructor
  · intro j positive apart
    apply precedes_exchange first second
    intro c d atJ atUp
    rw [if_neg apart] at atJ
    by_cases here : j = i
    · subst here
      rw [if_pos rfl] at atJ
      rw [if_neg (by omega), if_pos rfl] at atUp
      grind
    · rw [if_neg here] at atJ
      have order := precedes_eq_false.mp (up.others j positive here) c
      by_cases child : parent j = i
      · rw [if_pos child] at atUp
        exact precedes_eq_false.mp (up.below j positive child (by omega)) c d atJ atUp
      · rw [if_neg child] at atUp
        by_cases sibling : parent j = parent i
        · rw [if_pos sibling, atI] at atUp
          have larger := order b atJ (by rw [sibling]; exact atParent)
          exact weak.trans (Option.some.inj atUp ▸ after) larger
        · rw [if_neg sibling] at atUp
          exact order d atJ atUp
  · intro j positive child inner
    apply precedes_exchange first second
    intro c d atJ atUp
    have higher : parent (parent i) < parent i := by unfold parent at *; omega
    rw [if_neg (by omega), if_neg (by omega)] at atUp
    have order := precedes_eq_false.mp (up.others (parent i) inner (by omega)) b d atParent atUp
    by_cases here : j = i
    · subst here
      rw [if_pos rfl, atParent] at atJ
      exact Option.some.inj atJ ▸ order
    · have apart : j ≠ parent i := by unfold parent at *; omega
      rw [if_neg here, if_neg apart] at atJ
      have larger := precedes_eq_false.mp (up.others j positive here) c b atJ
        (by rw [child]; exact atParent)
      exact weak.trans order larger

/-- The element at the position is in order with its parent as well. -/
theorem UpOrder.ordered (up : UpOrder lt elements i)
    (here : i ≠ 0 → precedes lt elements i (parent i) = false) : Ordered lt elements := by
  intro j positive
  by_cases same : j = i
  · subst same
    exact here (by omega)
  · exact up.others j positive same

theorem siftUp_ordered (weak : WeakOrder lt) (fuel : Nat) :
    ∀ (i : Nat) (elements : List α), i ≤ fuel → UpOrder lt elements i →
      Ordered lt (siftUp lt fuel i elements) := by
  induction fuel with
  | zero =>
      intro i elements enough up
      exact up.ordered fun inner => absurd (Nat.le_zero.mp enough) inner
  | succ fuel inductionHypothesis =>
      intro i elements enough up
      rw [siftUp]
      split
      · rename_i moves
        have above : parent i < i := by unfold parent; omega
        exact inductionHypothesis _ _ (by omega) (up.exchange weak moves.1 moves.2)
      · rename_i stays
        apply up.ordered
        intro inner
        by_contra less
        exact stays ⟨inner, by simpa using less⟩

theorem leastChild_le (weak : WeakOrder lt) {j : Nat} (positive : 0 < j) (child : parent j = i) :
    precedes lt elements j (leastChild lt elements i) = false := by
  have irreflexive : ∀ a, lt a a = false := by
    intro a
    by_contra less
    have also : lt a a = true := by simpa using less
    exact less (weak.asymm also)
  have either : j = 2 * i + 1 ∨ j = 2 * i + 2 := by unfold parent at child; omega
  have same : ∀ m, precedes lt elements m m = false := by
    intro m
    rw [precedes_eq_false]
    intro a b atA atB
    rw [atA] at atB
    exact Option.some.inj atB ▸ irreflexive a
  unfold leastChild
  split
  · rename_i right
    rcases either with rfl | rfl
    · rcases precedes_eq_true.mp right with ⟨a, b, atA, atB, less⟩
      rw [precedes_eq_false]
      intro c d atC atD
      rw [atA] at atD
      rw [atB] at atC
      exact Option.some.inj atC ▸ Option.some.inj atD ▸ weak.asymm less
    · exact same _
  · rename_i left
    rcases either with rfl | rfl
    · exact same _
    · simpa using left

theorem DownOrder.exchange (weak : WeakOrder lt) (down : DownOrder lt elements i)
    (less : precedes lt elements (leastChild lt elements i) i = true) :
    DownOrder lt (exchange elements i (leastChild lt elements i))
      (leastChild lt elements i) := by
  have least : ∀ j, 0 < j → parent j = i →
      precedes lt elements j (leastChild lt elements i) = false :=
    fun _ positive child => leastChild_le weak positive child
  rcases parent_leastChild lt elements i with ⟨up, above⟩
  generalize leastChild lt elements i = child at *
  rcases precedes_eq_true.mp less with ⟨a, b, atChild, atI, before⟩
  have first : i < elements.length := (List.getElem?_eq_some_iff.mp atI).1
  have second : child < elements.length := (List.getElem?_eq_some_iff.mp atChild).1
  constructor
  · intro j positive apart
    apply precedes_exchange first second
    intro c d atJ atUp
    rw [if_neg apart] at atUp
    by_cases here : j = i
    · subst here
      have higher : parent j < j := by unfold parent; omega
      rw [if_pos rfl] at atJ
      rw [if_neg (by omega)] at atUp
      exact precedes_eq_false.mp (down.below child (by omega) up positive) c d atJ atUp
    · rw [if_neg here] at atJ
      by_cases swapped : j = child
      · subst swapped
        rw [if_pos rfl, atI] at atJ
        rw [if_pos up, atChild] at atUp
        exact Option.some.inj atJ ▸ Option.some.inj atUp ▸ weak.asymm before
      · rw [if_neg swapped] at atJ
        by_cases sibling : parent j = i
        · rw [if_pos sibling] at atUp
          exact precedes_eq_false.mp (least j positive sibling) c d atJ atUp
        · rw [if_neg sibling] at atUp
          exact precedes_eq_false.mp (down.others j positive sibling) c d atJ atUp
  · intro j positive grandchild _
    have lower : child < j := by unfold parent at grandchild; omega
    apply precedes_exchange first second
    intro c d atJ atUp
    rw [if_neg (by omega), if_neg (by omega)] at atJ
    rw [if_pos up] at atUp
    have order := down.others j positive (by omega)
    rw [grandchild] at order
    exact precedes_eq_false.mp order c d atJ atUp

/-- The element at the position is in order with its children as well. -/
theorem DownOrder.ordered (weak : WeakOrder lt) (down : DownOrder lt elements i)
    (here : precedes lt elements (leastChild lt elements i) i = false) : Ordered lt elements := by
  intro j positive
  by_cases child : parent j = i
  · rw [child, precedes_eq_false]
    intro a b atJ atI
    rcases parent_leastChild lt elements i with ⟨up, above⟩
    have inside : leastChild lt elements i < elements.length := by
      have bounded := (List.getElem?_eq_some_iff.mp atJ).1
      unfold leastChild
      split
      · rename_i right
        rcases precedes_eq_true.mp right with ⟨_, _, occupied, _, _⟩
        exact (List.getElem?_eq_some_iff.mp occupied).1
      · unfold parent at child
        omega
    have occupied := List.getElem?_eq_getElem inside
    have largest := precedes_eq_false.mp here _ b occupied atI
    have larger := precedes_eq_false.mp (leastChild_le weak positive child) a _ atJ occupied
    exact weak.trans largest larger
  · exact down.others j positive child

theorem siftDown_ordered (weak : WeakOrder lt) (fuel : Nat) :
    ∀ (i : Nat) (elements : List α), elements.length ≤ i + fuel → DownOrder lt elements i →
      Ordered lt (siftDown lt fuel i elements) := by
  induction fuel with
  | zero =>
      intro i elements enough down
      apply down.ordered weak
      rw [precedes_eq_false]
      intro a b _ atI
      exact absurd (List.getElem?_eq_some_iff.mp atI).1 (by omega)
  | succ fuel inductionHypothesis =>
      intro i elements enough down
      rw [siftDown]
      split
      · rename_i moves
        have lower := (parent_leastChild lt elements i).2
        apply inductionHypothesis _ _ _ (down.exchange weak moves)
        rw [exchange_length]
        omega
      · rename_i stays
        exact down.ordered weak (by simpa using stays)

theorem push_ordered (weak : WeakOrder lt) (ordered : Ordered lt elements) (element : α) :
    Ordered lt (push lt elements element) := by
  apply siftUp_ordered weak _ _ _ (Nat.le_refl _)
  constructor
  · intro j positive apart
    rw [precedes_eq_false]
    intro a b atJ atUp
    have bounded := (List.getElem?_eq_some_iff.mp atJ).1
    rw [List.length_append, List.length_singleton] at bounded
    have higher : parent j < j := by unfold parent; omega
    rw [List.getElem?_append_left (by omega)] at atJ atUp
    exact precedes_eq_false.mp (ordered j positive) a b atJ atUp
  · intro j positive child _
    rw [precedes_eq_false]
    intro a b atJ _
    have bounded := (List.getElem?_eq_some_iff.mp atJ).1
    rw [List.length_append, List.length_singleton] at bounded
    unfold parent at child
    omega

/-- No element of an ordered heap is strictly less than the root. -/
theorem Ordered.root_le (weak : WeakOrder lt) (ordered : Ordered lt elements) {root element : α}
    (atRoot : elements[0]? = some root) :
    ∀ j : Nat, elements[j]? = some element → lt element root = false := by
  intro j
  induction j using Nat.strongRecOn generalizing element with
  | _ j inductionHypothesis =>
      intro atJ
      have inside := (List.getElem?_eq_some_iff.mp atJ).1
      by_cases positive : 0 < j
      · have higher : parent j < j := by unfold parent; omega
        have above := List.getElem?_eq_getElem (Nat.lt_trans higher inside)
        have larger := precedes_eq_false.mp (ordered j positive) element _ atJ above
        exact weak.trans (inductionHypothesis _ higher above) larger
      · have same : j = 0 := by omega
        subst same
        rw [atRoot] at atJ
        cases atJ
        by_contra less
        have also : lt root root = true := by simpa using less
        exact less (weak.asymm also)

theorem Ordered.front {last : List α} (ordered : Ordered lt (elements ++ last)) :
    Ordered lt elements := by
  intro j positive
  rw [precedes_eq_false]
  intro a b atJ atUp
  have inside := (List.getElem?_eq_some_iff.mp atJ).1
  have above := (List.getElem?_eq_some_iff.mp atUp).1
  apply precedes_eq_false.mp (ordered j positive) a b
  · rw [List.getElem?_append_left inside, atJ]
  · rw [List.getElem?_append_left above, atUp]

/-- Writing an element over an inner position disturbs only its own order. -/
theorem Ordered.set (weak : WeakOrder lt) (ordered : Ordered lt elements)
    (inside : i < elements.length) (element : α) :
    (∀ j, 0 < j → j ≠ i → parent j ≠ i →
      precedes lt (elements.set i element) j (parent j) = false) ∧
    ∀ j, 0 < j → parent j = i → 0 < i →
      precedes lt (elements.set i element) j (parent i) = false := by
  have kept : ∀ m, m ≠ i → (elements.set i element)[m]? = elements[m]? := fun m apart =>
    List.getElem?_set_ne (Ne.symm apart)
  constructor
  · intro j positive apart other
    rw [precedes_eq_false, kept j apart, kept _ other]
    exact precedes_eq_false.mp (ordered j positive)
  · intro j positive child inner
    have higher : parent i < i := by unfold parent; omega
    have lower : i < j := by unfold parent at child; omega
    rw [precedes_eq_false, kept j (by omega), kept _ (by omega)]
    intro a b atJ atUp
    have atI := List.getElem?_eq_getElem inside
    have larger := precedes_eq_false.mp (ordered j positive) a _ atJ (by rw [child]; exact atI)
    have largest := precedes_eq_false.mp (ordered i inner) _ b atI atUp
    exact weak.trans largest larger

theorem settle_ordered (weak : WeakOrder lt) (ordered : Ordered lt elements)
    (inside : i < elements.length) (element : α) :
    Ordered lt (settle lt i (elements.set i element)) := by
  rcases ordered.set weak inside element with ⟨others, below⟩
  have here : (elements.set i element)[i]? = some element := List.getElem?_set_self inside
  unfold settle
  split
  · rename_i moves
    refine siftUp_ordered weak _ _ _ (Nat.le_refl _) ⟨?_, below⟩
    intro j positive apart
    by_cases child : parent j = i
    · rcases precedes_eq_true.mp moves.2 with ⟨a, b, atI, atUp, less⟩
      rw [child, precedes_eq_false]
      intro c d atJ atI'
      have larger := precedes_eq_false.mp (below j positive child (by omega)) c b atJ atUp
      rw [atI] at atI'
      cases atI'
      exact weak.trans (weak.asymm less) larger
    · exact others j positive apart child
  · rename_i stays
    refine siftDown_ordered weak _ _ _ (by omega) ⟨?_, below⟩
    intro j positive child
    by_cases same : j = i
    · subst same
      by_contra less
      exact stays ⟨by omega, by simpa using less⟩
    · exact others j positive same child

theorem removeAt_ordered (weak : WeakOrder lt) (ordered : Ordered lt elements)
    (inside : i < elements.length) : Ordered lt (removeAt lt elements i) := by
  rcases List.eq_nil_or_concat elements with rfl | ⟨front, last, rfl⟩
  · exact absurd inside (by simp)
  rw [List.concat_eq_append] at ordered inside ⊢
  unfold removeAt
  simp only [List.getLast?_append, List.getLast?_singleton, Option.some_or,
    List.dropLast_concat, List.length_append, List.length_singleton] at inside ⊢
  split
  · exact ordered.front
  · exact settle_ordered weak ordered.front (by omega) last

end NgrCore.Library.BinaryHeap
