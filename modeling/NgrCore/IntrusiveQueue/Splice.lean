import NgrCore.IntrusiveQueue
import Mathlib.Logic.Function.Iterate
import Mathlib.Data.List.Induction

/-!
Owns the iterators of `__intrusive_queue` and `_M_splice`, and exactly which segments it
moves to which positions.
-/

namespace NgrCore.IntrusiveQueue

open NgrCore.Library

variable {Node : Type*}

/-- `__iterator`: `__predecessor_` and `__item_`. -/
structure Iterator (Node : Type*) where
  predecessor : Option Node := none
  item : Option Node := none
deriving Repr, DecidableEq

/-- `operator++`. -/
def Iterator.advance (next : Links Node) (iterator : Iterator Node) : Iterator Node :=
  ⟨iterator.item, iterator.item.bind next⟩

def begin (queue : IntrusiveQueue Node) : Iterator Node := ⟨none, queue.head⟩

def ends (queue : IntrusiveQueue Node) : Iterator Node := ⟨queue.tail, none⟩

/-- The iterator after `n` increments of `begin`. -/
def iterator (next : Links Node) (queue : IntrusiveQueue Node) (n : Nat) : Iterator Node :=
  (Iterator.advance next)^[n] queue.begin

variable [DecidableEq Node]

/-- The part of `_M_splice` that takes the segment out of the other queue. `none` means
that a null predecessor was followed. -/
def unlink (next : Links Node) (pos : Iterator Node) (other : IntrusiveQueue Node)
    (first last : Iterator Node) : Option (Links Node × IntrusiveQueue Node) :=
  if other.head = first.item then
    some (next, ⟨last.item, if last.item = none then none else other.tail⟩)
  else
    first.predecessor.bind fun before => last.predecessor.map fun back =>
      (Function.update (Function.update next before last.item) back pos.item, other)

/-- The part that puts it into this queue. -/
def link (next : Links Node) (queue : IntrusiveQueue Node) (pos first last : Iterator Node) :
    Option (Links Node × IntrusiveQueue Node) :=
  if queue.isEmpty then some (next, ⟨first.item, last.predecessor⟩)
  else
    pos.predecessor.map fun before =>
      (Function.update next before first.item,
        ⟨queue.head, if pos.item = none then last.predecessor else queue.tail⟩)

/-- `_M_splice`: the links, this queue and the other. `none` also stands for a failed
assertion. -/
def splice (next : Links Node) (queue : IntrusiveQueue Node) (pos : Iterator Node)
    (other : IntrusiveQueue Node) (first last : Iterator Node) :
    Option (Links Node × IntrusiveQueue Node × IntrusiveQueue Node) :=
  if first = last then some (next, queue, other)
  else if first.item = none ∨ last.predecessor = none then none
  else
    (unlink next pos other first last).bind fun unlinked =>
      (link unlinked.1 queue pos first last).map fun linked => (linked.1, linked.2, unlinked.2)

section Iterators

variable {next : Links Node} {queue : IntrusiveQueue Node} {front back : List Node}

omit [DecidableEq Node]

theorem Represents.iterator (represents : Represents next queue (front ++ back)) :
    queue.iterator next front.length = ⟨front.getLast?, back.head?⟩ := by
  induction front using List.reverseRecOn generalizing back with
  | nil =>
      have head : queue.head = back.head? := represents.1.head_eq
      rw [List.length_nil, IntrusiveQueue.iterator, Function.iterate_zero_apply, begin, head]
      rfl
  | append_singleton front last inductionHypothesis =>
      have longer : Represents next queue (front ++ last :: back) := by simpa using represents
      have before := inductionHypothesis longer
      have successor : next last = back.head? := represents.1.next_last (by simp)
      rw [List.length_append, List.length_singleton, IntrusiveQueue.iterator,
        Function.iterate_succ_apply']
      rw [IntrusiveQueue.iterator] at before
      rw [before, Iterator.advance, List.getLast?_concat]
      simp [successor]

end Iterators

/-- A splice into a queue writes no link but that of the node before the position. -/
theorem link_agree {next links : Links Node} {queue result : IntrusiveQueue Node}
    {pos first last : Iterator Node} {node : Node}
    (linked : link next queue pos first last = some (links, result))
    (other : pos.predecessor ≠ some node) : links node = next node := by
  unfold link at linked
  split at linked
  · obtain ⟨rfl, -⟩ := Prod.mk.inj (Option.some.inj linked)
    rfl
  · obtain ⟨before, here, same⟩ := Option.map_eq_some_iff.mp linked
    obtain ⟨rfl, -⟩ := Prod.mk.inj same
    apply Function.update_of_ne
    rintro rfl
    exact other here

section Splice

variable {next : Links Node} {queue other : IntrusiveQueue Node}
  {before after front segment rest : List Node}

/-- What a splice of the segment to the position is to do. -/
def Splices (next : Links Node) (queue other : IntrusiveQueue Node)
    (before after front segment rest : List Node) : Prop :=
  ∃ links result remaining,
    splice next queue (queue.iterator next before.length) other
        (other.iterator next front.length) (other.iterator next (front ++ segment).length) =
      some (links, result, remaining) ∧
    Represents links result (before ++ segment ++ after) ∧
    Represents links remaining (front ++ rest)

/-- Nothing is moved, or the whole other list to the end, or a segment from within the other
list to any position but the front of a list with elements. -/
def Movable (before after front segment rest : List Node) : Prop :=
  segment = [] ∨ (front = [] ∧ rest = [] ∧ after = []) ∨
    (front ≠ [] ∧ rest ≠ [] ∧ (before ≠ [] ∨ after = []))

/-- Two well-formed queues without a node in common, one cut at the position and the other
around the segment. -/
structure Cut (next : Links Node) (queue other : IntrusiveQueue Node)
    (before after front segment rest : List Node) : Prop where
  target : Represents next queue (before ++ after)
  source : Represents next other (front ++ segment ++ rest)
  disjoint : ∀ node ∈ before ++ after, node ∉ front ++ segment ++ rest

variable (cut : Cut next queue other before after front segment rest)
include cut

omit [DecidableEq Node] in
theorem Cut.first : other.iterator next front.length =
    ⟨front.getLast?, (segment ++ rest).head?⟩ := by
  have source := cut.source
  rw [List.append_assoc] at source
  exact source.iterator

omit [DecidableEq Node] in
theorem Cut.distinct : (front ++ segment ++ rest).Nodup := cut.source.1.nodup

/-- The call, with its iterators read and the segment taken out. -/
theorem Cut.splice_eq {start stop : Node} {links : Links Node} {remaining : IntrusiveQueue Node}
    (starts : segment.head? = some start) (stops : segment.getLast? = some stop)
    (unlinked : unlink next ⟨before.getLast?, after.head?⟩ other ⟨front.getLast?, some start⟩
      ⟨some stop, rest.head?⟩ = some (links, remaining)) :
    splice next queue (queue.iterator next before.length) other
        (other.iterator next front.length) (other.iterator next (front ++ segment).length) =
      (link links queue ⟨before.getLast?, after.head?⟩ ⟨front.getLast?, some start⟩
        ⟨some stop, rest.head?⟩).map fun linked => (linked.1, linked.2, remaining) := by
  have item : (segment ++ rest).head? = some start := by simp [starts]
  have predecessor : (front ++ segment).getLast? = some stop := by simp [stops]
  have differs : (⟨front.getLast?, some start⟩ : Iterator Node) ≠ ⟨some stop, rest.head?⟩ := by
    intro same
    have shared := congrArg Iterator.predecessor same
    have inFront := List.mem_of_getLast? shared
    have inSegment := List.mem_of_getLast? stops
    have distinct := (List.nodup_append.mp cut.distinct).1
    exact (List.nodup_append.mp distinct).2.2 stop inFront stop inSegment rfl
  rw [cut.first, cut.source.iterator, cut.target.iterator, item, predecessor, splice,
    if_neg differs, if_neg (by simp), unlinked]
  rfl

omit [DecidableEq Node] in
/-- The four kinds of nodes around the segment are not in it, nor in one another. -/
theorem Cut.apart {node : Node} :
    (node ∈ segment → node ∉ front ∧ node ∉ rest ∧ node ∉ before ∧ node ∉ after) ∧
      (node ∈ front ++ rest → node ∉ before ++ after) ∧ (node ∈ front → node ∉ rest) ∧
      (node ∈ before → node ∉ after) := by
  have source := cut.distinct
  have target := cut.target.1.nodup
  have disjoint := cut.disjoint node
  simp only [List.nodup_append, List.mem_append] at source target disjoint ⊢
  refine ⟨fun inside => ⟨fun other => ?_, fun other => ?_, fun other => ?_, fun other => ?_⟩, ?_,
    fun first other => ?_, fun first other => ?_⟩
  · exact source.1.2.2 node other node inside rfl
  · exact source.2.2 node (.inr inside) node other rfl
  · exact disjoint (.inl other) (.inl (.inr inside))
  · exact disjoint (.inr other) (.inl (.inr inside))
  · rintro (inside | inside) outside
    · exact disjoint outside (.inl (.inl inside))
    · exact disjoint outside (.inr inside)
  · exact source.2.2 node (.inl first) node other rfl
  · exact target.2.2 node first node other rfl

theorem Cut.unlink_prefix {start stop : Node} (starts : segment.head? = some start)
    (none : front = []) :
    unlink next ⟨before.getLast?, after.head?⟩ other ⟨front.getLast?, some start⟩
        ⟨some stop, rest.head?⟩ =
      some (next, ⟨rest.head?, if rest.head? = Option.none then Option.none else other.tail⟩) := by
  have head : other.head = some start := by
    have source := cut.source.1.head_eq
    rw [none, List.nil_append, List.head?_append, starts] at source
    exact source
  rw [unlink, if_pos head]

theorem Cut.unlink_inner {start stop last : Node} (starts : segment.head? = some start)
    (ends : front.getLast? = some last) :
    unlink next ⟨before.getLast?, after.head?⟩ other ⟨front.getLast?, some start⟩
        ⟨some stop, rest.head?⟩ =
      some (Function.update (Function.update next last rest.head?) stop after.head?, other) := by
  have head : other.head ≠ some start := by
    intro same
    have source := cut.source.1.head_eq
    rw [same] at source
    have inFront : start ∈ front := by
      cases front with
      | nil => cases ends
      | cons first others =>
          have first : start = first := Option.some.inj source
          rw [first]
          exact List.mem_cons_self
    have inSegment : start ∈ segment := List.mem_of_head? starts
    have distinct := (List.nodup_append.mp cut.distinct).1
    exact (List.nodup_append.mp distinct).2.2 start inFront start inSegment rfl
  rw [unlink, if_neg head, ends]
  rfl

omit [DecidableEq Node] in
theorem Cut.isEmpty : queue.isEmpty = true ↔ before = [] ∧ after = [] := by
  rw [cut.target.isEmpty_iff, List.append_eq_nil_iff]

theorem Cut.link_empty {links : Links Node} {start stop : Node} (empty : before = [] ∧ after = []) :
    link links queue ⟨before.getLast?, after.head?⟩ ⟨front.getLast?, some start⟩
        ⟨some stop, rest.head?⟩ =
      some (links, ⟨some start, some stop⟩) := by
  rw [link, if_pos (cut.isEmpty.mpr empty)]

/-- The iterator at the front of a list with elements has no predecessor to write to. -/
theorem Cut.link_front {links : Links Node} {start stop : Node} (none : before = [])
    (more : after ≠ []) :
    link links queue ⟨before.getLast?, after.head?⟩ ⟨front.getLast?, some start⟩
        ⟨some stop, rest.head?⟩ = Option.none := by
  rw [link, if_neg fun empty => more (cut.isEmpty.mp empty).2, none]
  rfl

theorem Cut.link_behind {links : Links Node} {start stop last : Node}
    (ends : before.getLast? = some last) :
    link links queue ⟨before.getLast?, after.head?⟩ ⟨front.getLast?, some start⟩
        ⟨some stop, rest.head?⟩ =
      some (Function.update links last (some start),
        ⟨queue.head, if after.head? = none then some stop else queue.tail⟩) := by
  have some : before ≠ [] := by
    rintro rfl
    cases ends
  rw [link, if_neg fun empty => some (cut.isEmpty.mp empty).1, ends]
  rfl

omit [DecidableEq Node] in
theorem Cut.remaining {links : Links Node} {last : Node} (ends : front.getLast? = some last)
    (value : links last = rest.head?)
    (agree : ∀ node ∈ front ++ rest, node ≠ last → links node = next node) :
    Chain links other.head (front ++ rest) := by
  have source := cut.source.1
  have distinct := cut.distinct
  rw [List.append_assoc] at source distinct
  apply source.redirect ends
  · rw [value]
    refine (source.suffix.suffix).congr fun node member => ?_
    refine agree node (List.mem_append_right front member) ?_
    exact fun same => (List.nodup_append.mp distinct).2.2 last (List.mem_of_getLast? ends) node
      (List.mem_append_right segment member) same.symm
  · exact fun node member => agree node (List.mem_append_left rest member)

omit [DecidableEq Node] in
theorem Cut.moved {links : Links Node} {start stop : Node} (starts : segment.head? = some start)
    (stops : segment.getLast? = some stop) (value : links stop = after.head?)
    (inSegment : ∀ node ∈ segment, node ≠ stop → links node = next node)
    (inAfter : ∀ node ∈ after, links node = next node) :
    Chain links (some start) (segment ++ after) := by
  have source := cut.source.1
  rw [List.append_assoc] at source
  have cutOff := source.suffix
  rw [List.head?_append, starts] at cutOff
  apply Chain.redirect cutOff stops
  · rw [value]
    exact cut.target.1.suffix.congr inAfter
  · exact inSegment

omit [DecidableEq Node] in
theorem Cut.inserted {links : Links Node} {start last : Node} (ends : before.getLast? = some last)
    (value : links last = some start) (moved : Chain links (some start) (segment ++ after))
    (agree : ∀ node ∈ before, node ≠ last → links node = next node) :
    Chain links queue.head (before ++ segment ++ after) := by
  rw [List.append_assoc]
  refine cut.target.1.redirect ends ?_ agree
  rwa [value]

omit [DecidableEq Node] in
theorem Cut.tail {stop : Node} (stops : segment.getLast? = some stop) :
    (if after.head? = none then some stop else queue.tail) =
      (before ++ segment ++ after).getLast? := by
  cases after with
  | nil => simp [stops]
  | cons first others =>
      rw [if_neg (by simp), cut.target.2, List.getLast?_append_of_ne_nil _ (by simp),
        List.getLast?_append_of_ne_nil _ (by simp)]

theorem Cut.splices_whole {start stop : Node} (starts : segment.head? = some start)
    (stops : segment.getLast? = some stop) (whole : front = [] ∧ rest = [] ∧ after = []) :
    Splices next queue other before after front segment rest := by
  obtain ⟨rfl, rfl, rfl⟩ := whole
  have read := cut.splice_eq starts stops (cut.unlink_prefix starts rfl)
  have chain : Chain next (some start) segment := by
    have source := cut.source.1
    rw [List.append_nil] at source
    rw [← starts]
    exact source.suffix
  by_cases empty : before = []
  · subst empty
    rw [cut.link_empty ⟨rfl, rfl⟩] at read
    refine ⟨_, _, _, read, ⟨?_, ?_⟩, rfl, rfl⟩
    · simpa using chain
    · simp [stops]
  · obtain ⟨last, ends⟩ := Option.ne_none_iff_exists'.mp
      (List.getLast?_eq_none_iff.not.mpr empty)
    rw [cut.link_behind ends] at read
    have outside : last ∉ segment := by
      have member := List.mem_append_left [] (List.mem_of_getLast? ends)
      simpa using cut.disjoint last member
    refine ⟨_, _, _, read, ⟨?_, cut.tail stops⟩, rfl, rfl⟩
    apply cut.inserted ends (Function.update_self ..)
    · rw [List.append_nil]
      exact chain.update _ outside
    · exact fun node _ differs => Function.update_of_ne differs _ _

/-- A segment from within the other list goes behind other nodes or into an empty list. -/
theorem Cut.splices_inner {start stop : Node} (starts : segment.head? = some start)
    (stops : segment.getLast? = some stop) (within : front ≠ [] ∧ rest ≠ [])
    (behind : before ≠ [] ∨ after = []) :
    Splices next queue other before after front segment rest := by
  obtain ⟨first, firsts⟩ := Option.ne_none_iff_exists'.mp
    (List.getLast?_eq_none_iff.not.mpr within.1)
  have read := cut.splice_eq starts stops (cut.unlink_inner starts firsts)
  have stopIn := List.mem_of_getLast? stops
  have firstIn := List.mem_of_getLast? firsts
  have differs : first ≠ stop := by
    rintro rfl
    exact (cut.apart.1 stopIn).1 firstIn
  have tailEnd : other.tail = (front ++ rest).getLast? := by
    rw [cut.source.2, List.getLast?_append_of_ne_nil _ within.2,
      List.getLast?_append_of_ne_nil _ within.2]
  generalize inner : Function.update (Function.update next first rest.head?) stop after.head? =
    links at read
  have atFirst : links first = rest.head? := by
    rw [← inner, Function.update_of_ne differs, Function.update_self]
  have atStop : links stop = after.head? := by rw [← inner, Function.update_self]
  have agree : ∀ node, node ≠ stop → node ≠ first → links node = next node := by
    intro node notStop notFirst
    rw [← inner, Function.update_of_ne notStop, Function.update_of_ne notFirst]
  have remaining : Chain links other.head (front ++ rest) := by
    apply cut.remaining firsts atFirst
    intro node member notFirst
    refine agree node (fun same => ?_) notFirst
    rcases List.mem_append.mp member with inFront | inRest
    · exact (cut.apart.1 stopIn).1 (same ▸ inFront)
    · exact (cut.apart.1 stopIn).2.1 (same ▸ inRest)
  have moved : Chain links (some start) (segment ++ after) := by
    apply cut.moved starts stops atStop
    · intro node member notStop
      exact agree node notStop fun same => (cut.apart.1 member).1 (same ▸ firstIn)
    · intro node member
      refine agree node (fun same => ?_) fun same => ?_
      · exact (cut.apart.1 stopIn).2.2.2 (same ▸ member)
      · exact cut.apart.2.1 (List.mem_append_left rest firstIn)
          (List.mem_append_right before (same ▸ member))
  by_cases empty : before = []
  · have nothing : after = [] := behind.resolve_left fun some => some empty
    rw [cut.link_empty ⟨empty, nothing⟩] at read
    refine ⟨_, _, _, read, ⟨?_, ?_⟩, remaining, tailEnd⟩
    · rw [empty, List.nil_append]
      exact moved
    · simp [empty, nothing, stops]
  · obtain ⟨last, ends⟩ := Option.ne_none_iff_exists'.mp
      (List.getLast?_eq_none_iff.not.mpr empty)
    have lastIn := List.mem_of_getLast? ends
    have outside : last ∉ segment ++ after := by
      rw [List.mem_append, not_or]
      exact ⟨fun inside => (cut.apart.1 inside).2.2.1 lastIn, cut.apart.2.2.2 lastIn⟩
    rw [cut.link_behind ends] at read
    refine ⟨_, _, _, read, ⟨?_, cut.tail stops⟩, ?_, tailEnd⟩
    · apply cut.inserted ends (Function.update_self ..) (moved.update _ outside)
      intro node member notLast
      rw [Function.update_of_ne notLast]
      refine agree node (fun same => ?_) fun same => ?_
      · exact (cut.apart.1 stopIn).2.2.1 (same ▸ member)
      · exact cut.apart.2.1 (List.mem_append_left rest firstIn)
          (List.mem_append_left after (same ▸ member))
    · exact remaining.update _ fun inside =>
        cut.apart.2.1 inside (List.mem_append_left after lastIn)

theorem Cut.splices_nothing (nothing : segment = []) :
    Splices next queue other before after front segment rest := by
  subst nothing
  have source := cut.source
  rw [List.append_nil] at source
  refine ⟨next, queue, other, ?_, ?_, source⟩
  · rw [splice, if_pos (by rw [List.append_nil])]
  · simpa using cut.target

/-- Any other splice leaves one of the lists wrong, or writes through a null pointer. -/
theorem Cut.movable (splices : Splices next queue other before after front segment rest) :
    Movable before after front segment rest := by
  by_cases nothing : segment = []
  · exact .inl nothing
  obtain ⟨start, starts⟩ := Option.ne_none_iff_exists'.mp
    (List.head?_eq_none_iff.not.mpr nothing)
  obtain ⟨stop, stops⟩ := Option.ne_none_iff_exists'.mp
    (List.getLast?_eq_none_iff.not.mpr nothing)
  obtain ⟨links, result, remaining, called, target, source⟩ := splices
  have stopIn := List.mem_of_getLast? stops
  by_cases none : front = []
  · rw [cut.splice_eq starts stops (cut.unlink_prefix starts none)] at called
    obtain ⟨⟨links', result'⟩, linked, same⟩ := Option.map_eq_some_iff.mp called
    obtain rfl : links' = links := congrArg Prod.fst same
    have kept : links' stop = next stop := by
      refine link_agree linked fun same => ?_
      exact (cut.apart.1 stopIn).2.2.1 (List.mem_of_getLast? same)
    have led : next stop = rest.head? := cut.source.1.next_last (by simp [stops])
    have leads : links' stop = after.head? := target.1.next_last (by simp [stops])
    have shared : rest.head? = after.head? := led.symm.trans (kept.symm.trans leads)
    cases found : after.head? with
    | none =>
        rw [found] at shared
        exact .inr (.inl ⟨none, List.head?_eq_none_iff.mp shared, List.head?_eq_none_iff.mp found⟩)
    | some node =>
        rw [found] at shared
        exact absurd (List.mem_append_right before (List.mem_of_head? found))
          (cut.apart.2.1 (List.mem_append_right front (List.mem_of_head? shared)))
  · obtain ⟨first, firsts⟩ := Option.ne_none_iff_exists'.mp
      (List.getLast?_eq_none_iff.not.mpr none)
    rw [cut.splice_eq starts stops (cut.unlink_inner starts firsts)] at called
    refine .inr (.inr ⟨none, fun atEnd => ?_, ?_⟩)
    · obtain ⟨linked, -, same⟩ := Option.map_eq_some_iff.mp called
      obtain rfl : other = remaining := congrArg (fun answer => answer.2.2) same
      have tail := cut.source.2.symm.trans source.2
      rw [atEnd, List.append_nil, List.append_nil, List.getLast?_append_of_ne_nil _ nothing, stops,
        firsts] at tail
      obtain rfl := Option.some.inj tail
      exact (cut.apart.1 stopIn).1 (List.mem_of_getLast? firsts)
    · by_contra atFront
      rw [not_or, not_not] at atFront
      rw [cut.link_front atFront.1 atFront.2] at called
      cases called

/-- `_M_splice` moves the segment if and only if it is movable. -/
theorem splices_iff : Splices next queue other before after front segment rest ↔
    Movable before after front segment rest := by
  refine ⟨cut.movable, fun movable => ?_⟩
  by_cases nothing : segment = []
  · exact cut.splices_nothing nothing
  obtain ⟨start, starts⟩ := Option.ne_none_iff_exists'.mp
    (List.head?_eq_none_iff.not.mpr nothing)
  obtain ⟨stop, stops⟩ := Option.ne_none_iff_exists'.mp
    (List.getLast?_eq_none_iff.not.mpr nothing)
  rcases movable with none | whole | ⟨some, more, behind⟩
  · exact absurd none nothing
  · exact cut.splices_whole starts stops whole
  · exact cut.splices_inner starts stops ⟨some, more⟩ behind

end Splice

/-- The front of a queue spliced into an empty one. The links are as before, so that the
last node of the segment still leads to the rest. -/
theorem splice_front {next : Links Node} {other : IntrusiveQueue Node}
    {segment rest : List Node} {start stop : Node}
    (source : Represents next other (segment ++ rest)) (starts : segment.head? = some start)
    (stops : segment.getLast? = some stop) :
    splice next {} (ends {}) other other.begin ⟨some stop, rest.head?⟩ =
      some (next, ⟨some start, some stop⟩,
        ⟨rest.head?, if rest.head? = none then none else other.tail⟩) := by
  have cut : Cut next ({} : IntrusiveQueue Node) other [] [] [] segment rest :=
    ⟨represents_empty, source, fun node member => by cases member⟩
  have read := cut.splice_eq starts stops (cut.unlink_prefix starts rfl)
  have last : other.iterator next ([] ++ segment).length = ⟨some stop, rest.head?⟩ := by
    rw [cut.source.iterator, List.nil_append, stops]
  rw [last, cut.link_empty ⟨rfl, rfl⟩] at read
  exact read

omit [DecidableEq Node] in
theorem Represents.rest {next : Links Node} {queue : IntrusiveQueue Node}
    {segment rest : List Node} (represents : Represents next queue (segment ++ rest)) :
    Represents next ⟨rest.head?, if rest.head? = none then none else queue.tail⟩ rest := by
  refine ⟨represents.1.suffix, ?_⟩
  cases rest with
  | nil => rfl
  | cons node others =>
      rw [if_neg (by simp), represents.2]
      exact List.getLast?_append_of_ne_nil _ (List.cons_ne_nil node others)

/-- Two nodes from within a queue of four, moved between the second and the third of another. -/
theorem splices_iff_inner :
    Splices (fun node => if node = 4 ∨ node = 8 then none else some (node + 1))
      ⟨some 1, some 4⟩ ⟨some 5, some 8⟩ [1, 2] [3, 4] [5] [6, 7] [8] := by
  have cut : Cut (fun node => if node = 4 ∨ node = 8 then none else some (node + 1))
      ⟨some 1, some 4⟩ ⟨some 5, some 8⟩ [1, 2] [3, 4] [5] [6, 7] [8] :=
    ⟨⟨⟨rfl, rfl, rfl, rfl, rfl⟩, rfl⟩, ⟨⟨rfl, rfl, rfl, rfl, rfl⟩, rfl⟩, by decide⟩
  exact (splices_iff cut).mpr (.inr (.inr ⟨by decide, by decide, .inl (by decide)⟩))

/-- The first of two nodes moved behind another: its link still leads to the second. -/
theorem not_splices_prefix : ∃ (next : Links Nat) (queue other : IntrusiveQueue Nat),
    Cut next queue other [1] [] [] [2] [3] ∧ ¬ Splices next queue other [1] [] [] [2] [3] := by
  have cut : Cut (fun node => if node = 2 then some 3 else none) ⟨some 1, some 1⟩
      ⟨some 2, some 3⟩ [1] [] [] [2] [3] :=
    ⟨⟨⟨rfl, rfl⟩, rfl⟩, ⟨⟨rfl, rfl, rfl⟩, rfl⟩, by decide⟩
  refine ⟨_, _, _, cut, fun splices => ?_⟩
  rcases cut.movable splices with nothing | whole | within
  · cases nothing
  · cases whole.2.1
  · exact within.1 rfl

end NgrCore.IntrusiveQueue
