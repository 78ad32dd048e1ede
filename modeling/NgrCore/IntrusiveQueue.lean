import NgrCore.Library.Chain

/-!
Owns `__intrusive_queue` at the level of its pointers: a head, a tail, and the
link field stored inside each node. `Represents` says which list a queue
stands for; every operation is related to an operation on that list.
-/

namespace NgrCore

open NgrCore.Library

/-- `__intrusive_queue`: `__head_` and `__tail_`. -/
structure IntrusiveQueue (Node : Type*) where
  head : Option Node := none
  tail : Option Node := none
deriving Repr, DecidableEq

namespace IntrusiveQueue

variable {Node : Type*} [DecidableEq Node]

def isEmpty (queue : IntrusiveQueue Node) : Bool := queue.head.isNone

/-- `_M_pop_front`: the node taken and the queue without it. -/
def popFront (next : Links Node) (queue : IntrusiveQueue Node) :
    Option Node × IntrusiveQueue Node :=
  match queue.head with
  | none => (none, queue)
  | some item =>
      (some item, ⟨next item, if next item = none then none else queue.tail⟩)

def pushFront (next : Links Node) (queue : IntrusiveQueue Node) (item : Node) :
    Links Node × IntrusiveQueue Node :=
  (Function.update next item queue.head,
    ⟨some item, if queue.tail = none then some item else queue.tail⟩)

def pushBack (next : Links Node) (queue : IntrusiveQueue Node) (item : Node) :
    Links Node × IntrusiveQueue Node :=
  match queue.tail with
  | none => (Function.update next item none, ⟨some item, some item⟩)
  | some tail =>
      (Function.update (Function.update next item none) tail (some item),
        ⟨queue.head, some item⟩)

/-- `_M_append`. `none` means that a null tail was followed. -/
def append (next : Links Node) (queue other : IntrusiveQueue Node) :
    Option (Links Node × IntrusiveQueue Node) :=
  if other.isEmpty then some (next, queue)
  else if queue.isEmpty then some (next, ⟨other.head, other.tail⟩)
  else queue.tail.map fun tail =>
    (Function.update next tail other.head, ⟨queue.head, other.tail⟩)

/-- `_M_prepend`. `none` means that a null tail was followed. -/
def prepend (next : Links Node) (queue other : IntrusiveQueue Node) :
    Option (Links Node × IntrusiveQueue Node) :=
  if other.isEmpty then some (next, queue)
  else other.tail.map fun tail =>
    (Function.update next tail queue.head,
      ⟨other.head, if queue.tail = none then some tail else queue.tail⟩)

/-- The loop of `__create`. The fuel bounds its iterations; `none` means that it ran
out. -/
def lastLoop (next : Links Node) (fuel : Nat) (tail : Node) : Option Node :=
  match next tail, fuel with
  | none, _ => some tail
  | some _, 0 => none
  | some node, fuel + 1 => lastLoop next fuel node

def create (next : Links Node) (fuel : Nat) : Option Node → Option (IntrusiveQueue Node)
  | none => some ⟨none, none⟩
  | some first => (lastLoop next fuel first).map fun tail => ⟨some first, some tail⟩

/-- The loop of `__create_reversed`. The fuel bounds its iterations; `none`
means that it ran out. -/
def reverseLoop (next : Links Node) : Nat → Option Node → Option Node →
    Option (Links Node × Option Node)
  | _, none, newHead => some (next, newHead)
  | 0, some _, _ => none
  | fuel + 1, some item, newHead =>
      reverseLoop (Function.update next item newHead) fuel (next item) (some item)

def createReversed (next : Links Node) (fuel : Nat) (list : Option Node) :
    Option (Links Node × IntrusiveQueue Node) :=
  (reverseLoop next fuel list none).map fun (next, newHead) =>
    (next, ⟨newHead, list⟩)

/-- The queue stands for a list: its chain reads that list and its tail is the
list's last node. -/
def Represents (next : Links Node) (queue : IntrusiveQueue Node) (nodes : List Node) : Prop :=
  Chain next queue.head nodes ∧ queue.tail = nodes.getLast?

variable {next : Links Node} {queue : IntrusiveQueue Node} {nodes : List Node}

omit [DecidableEq Node] in
theorem Represents.isEmpty_iff (represents : Represents next queue nodes) :
    queue.isEmpty = true ↔ nodes = [] := by
  rw [isEmpty, represents.1.head_eq]
  cases nodes <;> simp

omit [DecidableEq Node] in
theorem Represents.popFront {item : Node}
    (represents : Represents next queue (item :: nodes)) :
    (queue.popFront next).1 = some item ∧ Represents next (queue.popFront next).2 nodes := by
  obtain ⟨chain, last⟩ := represents
  have front : queue.popFront next =
      (some item, ⟨next item, if next item = none then none else queue.tail⟩) := by
    rw [IntrusiveQueue.popFront, chain.1]
  rw [front]
  refine ⟨rfl, chain.2, ?_⟩
  cases nodes with
  | nil =>
      have successor : next item = none := chain.2
      simp [successor]
  | cons second rest =>
      have successor : next item = some second := chain.2.1
      rw [last]
      simp [successor]

omit [DecidableEq Node] in
theorem Represents.popFront_tail (represents : Represents next queue nodes) :
    (queue.popFront next).1 = nodes.head? ∧ Represents next (queue.popFront next).2 nodes.tail := by
  cases nodes with
  | nil =>
      have empty : queue.head = none := represents.1
      have same : queue.popFront next = (none, queue) := by
        rw [IntrusiveQueue.popFront, empty]
      rw [same]
      exact ⟨rfl, represents⟩
  | cons item rest => exact represents.popFront

theorem Represents.pushFront {item : Node} (represents : Represents next queue nodes)
    (fresh : item ∉ nodes) :
    Represents (queue.pushFront next item).1 (queue.pushFront next item).2 (item :: nodes) := by
  obtain ⟨chain, last⟩ := represents
  refine ⟨⟨rfl, ?_⟩, ?_⟩
  · simpa [IntrusiveQueue.pushFront] using chain.update queue.head fresh
  · cases nodes with
    | nil => simp [IntrusiveQueue.pushFront, last]
    | cons first rest => simp [IntrusiveQueue.pushFront, last, List.getLast?_cons_cons]

theorem Represents.pushBack {item : Node} (represents : Represents next queue nodes)
    (fresh : item ∉ nodes) :
    Represents (queue.pushBack next item).1 (queue.pushBack next item).2 (nodes ++ [item]) ∧
      ∀ node ∉ nodes ++ [item], (queue.pushBack next item).1 node = next node := by
  obtain ⟨chain, last⟩ := represents
  cases tail : nodes.getLast? with
  | none =>
      have empty : nodes = [] := List.getLast?_eq_none_iff.mp tail
      subst empty
      rw [IntrusiveQueue.pushBack, last, tail]
      refine ⟨⟨⟨rfl, Function.update_self ..⟩, rfl⟩, fun node outside => ?_⟩
      exact Function.update_of_ne (ne_of_mem_of_not_mem (List.mem_singleton_self item) outside).symm
        _ _
  | some back =>
      have inside := List.mem_of_getLast? tail
      rw [IntrusiveQueue.pushBack, last, tail]
      refine ⟨⟨?_, ?_⟩, fun node outside => ?_⟩
      · have closed : Chain (Function.update next item none) (some item) [item] :=
          ⟨rfl, Function.update_self ..⟩
        refine (chain.update none fresh).append tail closed (fun node member => ?_) chain.nodup
        rw [List.mem_singleton]
        exact ne_of_mem_of_not_mem member fresh
      · rw [List.getLast?_concat]
      · rw [List.mem_append, List.mem_singleton, not_or] at outside
        dsimp only
        rw [Function.update_of_ne (ne_of_mem_of_not_mem inside outside.1).symm,
          Function.update_of_ne outside.2]

omit [DecidableEq Node] in
theorem represents_empty : Represents next ({} : IntrusiveQueue Node) [] := ⟨rfl, rfl⟩

omit [DecidableEq Node] in
/-- Two memories that agree on the nodes of a queue hold the same queue. -/
theorem Represents.congr {other : Links Node} (represents : Represents next queue nodes)
    (agree : ∀ node ∈ nodes, other node = next node) : Represents other queue nodes :=
  ⟨represents.1.congr agree, represents.2⟩

/-- Appending a queue of other nodes never follows a null tail, and writes no
link outside the queue appended to. -/
theorem Represents.append {other : IntrusiveQueue Node} {others : List Node}
    (represents : Represents next queue nodes) (continued : Represents next other others)
    (disjoint : ∀ node ∈ nodes, node ∉ others) :
    ∃ links result, queue.append next other = some (links, result) ∧
      Represents links result (nodes ++ others) ∧
      ∀ node, node ∉ nodes → links node = next node := by
  unfold IntrusiveQueue.append
  by_cases nothing : others = []
  · rw [if_pos (continued.isEmpty_iff.mpr nothing), nothing, List.append_nil]
    exact ⟨next, queue, rfl, represents, fun _ _ => rfl⟩
  rw [if_neg (continued.isEmpty_iff.not.mpr nothing)]
  by_cases start : nodes = []
  · rw [if_pos (represents.isEmpty_iff.mpr start), start, List.nil_append]
    exact ⟨next, other, rfl, continued, fun _ _ => rfl⟩
  rw [if_neg (represents.isEmpty_iff.not.mpr start)]
  have last := List.getLast?_eq_some_getLast start
  refine ⟨_, _, by rw [represents.2, last]; rfl, ⟨?_, ?_⟩, ?_⟩
  · exact represents.1.append last continued.1 disjoint represents.1.nodup
  · rw [List.getLast?_append_of_ne_nil _ nothing]
    exact continued.2
  · intro node outside
    exact Function.update_of_ne
      (ne_of_mem_of_not_mem (List.getLast_mem start) outside).symm _ _

/-- Prepending a queue of other nodes never follows a null tail, and writes no link outside
the queue prepended. -/
theorem Represents.prepend {other : IntrusiveQueue Node} {others : List Node}
    (represents : Represents next queue nodes) (front : Represents next other others)
    (disjoint : ∀ node ∈ others, node ∉ nodes) :
    ∃ links result, queue.prepend next other = some (links, result) ∧
      Represents links result (others ++ nodes) ∧
      ∀ node, node ∉ others → links node = next node := by
  unfold IntrusiveQueue.prepend
  by_cases nothing : others = []
  · rw [if_pos (front.isEmpty_iff.mpr nothing), nothing, List.nil_append]
    exact ⟨next, queue, rfl, represents, fun _ _ => rfl⟩
  rw [if_neg (front.isEmpty_iff.not.mpr nothing)]
  have last := List.getLast?_eq_some_getLast nothing
  refine ⟨_, _, by rw [front.2, last]; rfl, ⟨?_, ?_⟩, ?_⟩
  · exact front.1.append last represents.1 disjoint front.1.nodup
  · rw [represents.2]
    cases nodes with
    | nil => simpa using last.symm
    | cons first rest =>
        rw [if_neg (by simp), List.getLast?_append_of_ne_nil _ (List.cons_ne_nil first rest)]
  · intro node outside
    exact Function.update_of_ne
      (ne_of_mem_of_not_mem (List.getLast_mem nothing) outside).symm _ _

omit [DecidableEq Node] in
/-- Enough fuel finds the last node of a chain. -/
theorem lastLoop_spec {node : Node} {rest : List Node} (fuel : Nat) (enough : rest.length ≤ fuel)
    (chain : Chain next (next node) rest) :
    lastLoop next fuel node = (node :: rest).getLast? := by
  induction rest generalizing node fuel with
  | nil =>
      have ends : next node = none := chain
      unfold lastLoop
      rw [ends]
      rfl
  | cons second rest inductionHypothesis =>
      cases fuel with
      | zero => cases enough
      | succ fuel =>
          unfold lastLoop
          rw [chain.1, List.getLast?_cons_cons]
          exact inductionHypothesis fuel (Nat.le_of_succ_le_succ enough) chain.2

omit [DecidableEq Node] in
/-- Whatever fuel the loop succeeds with, it has found the last node. -/
theorem lastLoop_eq {node last : Node} {rest : List Node} {fuel : Nat}
    (chain : Chain next (next node) rest) (loop : lastLoop next fuel node = some last) :
    (node :: rest).getLast? = some last := by
  induction rest generalizing node fuel with
  | nil =>
      have ends : next node = none := chain
      unfold lastLoop at loop
      rw [ends] at loop
      exact loop
  | cons second rest inductionHypothesis =>
      unfold lastLoop at loop
      rw [chain.1] at loop
      cases fuel with
      | zero => cases loop
      | succ fuel =>
          rw [List.getLast?_cons_cons]
          exact inductionHypothesis chain.2 loop

omit [DecidableEq Node] in
/-- `__create` returns with enough fuel. -/
theorem create_isSome {head : Option Node} {fuel : Nat} (chain : Chain next head nodes)
    (enough : nodes.length ≤ fuel) : (create next fuel head).isSome := by
  cases nodes with
  | nil =>
      rw [Chain.nil_iff] at chain
      rw [chain]
      rfl
  | cons node rest =>
      obtain ⟨rfl, tail⟩ := chain
      rw [create, lastLoop_spec fuel (Nat.le_of_succ_le enough) tail]
      simp

omit [DecidableEq Node] in
/-- `__create` makes a queue of a null-terminated list. -/
theorem create_eq {head : Option Node} {fuel : Nat} {result : IntrusiveQueue Node}
    (chain : Chain next head nodes) (called : create next fuel head = some result) :
    Represents next result nodes := by
  cases nodes with
  | nil =>
      rw [Chain.nil_iff] at chain
      rw [chain] at called
      cases called
      exact represents_empty
  | cons node rest =>
      obtain ⟨rfl, tail⟩ := chain
      obtain ⟨last, loop, rfl⟩ := Option.map_eq_some_iff.mp called
      exact ⟨⟨rfl, tail⟩, (lastLoop_eq tail loop).symm⟩

/-- Enough fuel reverses any chain onto any other chain disjoint from it, and
writes no link outside the reversed nodes. -/
theorem reverseLoop_spec {done : List Node} {head newHead : Option Node} (fuel : Nat)
    (enough : nodes.length ≤ fuel) (chain : Chain next head nodes)
    (reversed : Chain next newHead done) (disjoint : ∀ node ∈ nodes, node ∉ done) :
    ∃ links front, reverseLoop next fuel head newHead = some (links, front) ∧
      Chain links front (nodes.reverse ++ done) ∧
      ∀ node, node ∉ nodes → links node = next node := by
  induction nodes generalizing next head newHead done fuel with
  | nil =>
      rw [Chain.nil_iff] at chain
      subst chain
      exact ⟨next, newHead, by simp [reverseLoop], by simpa using reversed, fun _ _ => rfl⟩
  | cons item rest inductionHypothesis =>
      have itemOutside : item ∉ rest := (List.nodup_cons.mp chain.nodup).1
      have itemNew : item ∉ done := disjoint item (by simp)
      rcases chain with ⟨rfl, tail⟩
      rcases fuel with _ | fuel
      · simp at enough
      have remaining : Chain (Function.update next item newHead) (next item) rest :=
        tail.update newHead itemOutside
      have extended : Chain (Function.update next item newHead) (some item) (item :: done) :=
        ⟨rfl, by simpa using reversed.update newHead itemNew⟩
      have apart : ∀ node ∈ rest, node ∉ item :: done := by
        intro node member
        simp only [List.mem_cons, not_or]
        exact ⟨ne_of_mem_of_not_mem member itemOutside, disjoint node (by simp [member])⟩
      rcases inductionHypothesis fuel (by simpa using enough) remaining extended apart with
        ⟨links, front, loop, finished, outside⟩
      refine ⟨links, front, loop, by simpa using finished, fun node notMember => ?_⟩
      simp only [List.mem_cons, not_or] at notMember
      rw [outside node notMember.2, Function.update_of_ne notMember.1]

/-- `__create_reversed` turns a null-terminated list into the queue of its
reversal. -/
theorem createReversed_spec {head : Option Node} (fuel : Nat) (enough : nodes.length ≤ fuel)
    (chain : Chain next head nodes) :
    ∃ links reversed, createReversed next fuel head = some (links, reversed) ∧
      Represents links reversed nodes.reverse ∧
      ∀ node, node ∉ nodes → links node = next node := by
  have nothing : Chain next none [] := rfl
  rcases reverseLoop_spec fuel enough chain nothing (by simp) with
    ⟨links, front, loop, finished, outside⟩
  refine ⟨links, ⟨front, head⟩, by simp [createReversed, loop], ⟨?_, ?_⟩,
    outside⟩
  · simpa using finished
  · simpa using chain.head_eq

/-- The loop succeeds only with fuel for every node. -/
theorem length_le_of_reverseLoop {head newHead : Option Node} {fuel : Nat}
    {result : Links Node × Option Node} (chain : Chain next head nodes)
    (loop : reverseLoop next fuel head newHead = some result) : nodes.length ≤ fuel := by
  induction nodes generalizing next head newHead fuel with
  | nil => exact Nat.zero_le _
  | cons item rest inductionHypothesis =>
      have itemOutside : item ∉ rest := (List.nodup_cons.mp chain.nodup).1
      obtain ⟨rfl, tail⟩ := chain
      cases fuel with
      | zero => simp [reverseLoop] at loop
      | succ fuel =>
          rw [reverseLoop] at loop
          exact Nat.succ_le_succ (inductionHypothesis (tail.update newHead itemOutside) loop)

/-- Whatever fuel `__create_reversed` succeeds with, its result is the
reversal. -/
theorem createReversed_eq {head : Option Node} {fuel : Nat} {links : Links Node}
    {reversed : IntrusiveQueue Node} (chain : Chain next head nodes)
    (result : createReversed next fuel head = some (links, reversed)) :
    Represents links reversed nodes.reverse ∧ ∀ node, node ∉ nodes → links node = next node := by
  obtain ⟨inner, loop, -⟩ := Option.map_eq_some_iff.mp result
  obtain ⟨links', reversed', again, represents, outside⟩ :=
    createReversed_spec fuel (length_le_of_reverseLoop chain loop) chain
  obtain ⟨rfl, rfl⟩ : links' = links ∧ reversed' = reversed := by
    simpa using again.symm.trans result
  exact ⟨represents, outside⟩

end IntrusiveQueue

end NgrCore
