import NgrCore.MpscQueue

/-!
Owns the steps of `_M_pop_front` over `__intrusive_mpsc_queue`: what each leaves of the
list, and the invariant of every run.
-/

namespace NgrCore.MpscQueue

open NgrCore.Library

section Facts

variable {Node Thread : Type} {stub : Node} {s : State Node Thread}

theorem linking_of_pop (s after : State Node Thread) (producer : after.producer = s.producer)
    (here : ∀ prev, s.consumer ≠ .stubLink prev) (there : ∀ prev, after.consumer ≠ .stubLink prev)
    (x y : Node) : Linking stub after x y ↔ Linking stub s x y := by
  unfold Linking
  rw [producer]
  exact or_congr_right ⟨fun now => absurd now.1 (there x), fun before => absurd before.1 (here x)⟩

variable [DecidableEq Node]

theorem Inv.nodes_single (inv : Inv stub s) (same : s.head = s.tail) : s.nodes = [s.tail] := by
  have nodup := inv.nodup
  have last := inv.last
  rw [inv.nodes_eq] at nodup last ⊢
  cases rest : s.nodes.tail with
  | nil => rfl
  | cons second others =>
      rw [rest] at nodup last
      rw [List.getLast?_cons_cons] at last
      have member : s.tail ∈ second :: others := same ▸ List.mem_of_getLast? last
      exact absurd member (List.nodup_cons.mp nodup).1

theorem Inv.move (inv : Inv stub s) (here : ∀ prev, s.consumer ≠ .stubLink prev) {pc : Pop Node}
    {pops : Nat} (there : ∀ prev, pc ≠ .stubLink prev) (ok : PopOk stub s pc) :
    Inv stub { s with consumer := pc, pops } where
  first := inv.first
  last := inv.last
  nodup := inv.nodup
  links x y follows := by
    rw [linking_of_pop s { s with consumer := pc, pops } rfl here there]
    exact inv.links x y follows
  linking x y linking := by
    rw [linking_of_pop s { s with consumer := pc, pops } rfl here there] at linking
    exact inv.linking x y linking
  ends := inv.ends
  ready := inv.ready
  given := inv.given
  distinct := inv.distinct
  contents := inv.contents
  producers := inv.producers
  consumer := by
    have same : PopOk stub { s with consumer := pc, pops } pc := by
      cases pc with
      | returned result => cases result <;> exact ok
      | idle | load | loadNext | loadHead | stubStore | stubExchange | stubLink | reload => exact ok
    exact same

theorem Inv.advance (inv : Inv stub s) {node : Node} (next : s.next s.tail = some node)
    (here : ∀ prev, s.consumer ≠ .stubLink prev) {pc : Pop Node} {popped : List Node}
    (there : ∀ prev, pc ≠ .stubLink prev) (taken : popped = s.popped ++ [s.tail].filter (· ≠ stub))
    (ok : PopOk stub { s with tail := node } pc)
    (listless : ∀ prev, pc ≠ .stubStore ∧ pc ≠ .stubExchange ∧ pc ≠ .stubLink prev ∧ pc ≠ .reload) :
    Inv stub { s with tail := node, consumer := pc, nodes := s.nodes.tail, popped } where
  first := inv.next_tail next
  last := by
    have last := inv.last
    rw [inv.nodes_eq] at last
    change s.nodes.tail.getLast? = some s.head
    cases rest : s.nodes.tail with
    | nil =>
        have first := inv.next_tail next
        rw [rest] at first
        cases first
    | cons second others =>
        rw [rest, List.getLast?_cons_cons] at last
        exact last
  nodup := inv.nodup.tail
  links x y follows := by
    rw [linking_of_pop s { s with
      tail := node, consumer := pc, nodes := s.nodes.tail, popped } rfl here there]
    apply inv.links x y
    rw [inv.nodes_eq]
    exact follows_cons.mpr (.inr follows)
  linking x y linking := by
    rw [linking_of_pop s { s with
      tail := node, consumer := pc, nodes := s.nodes.tail, popped } rfl here there] at linking
    obtain ⟨follows, null⟩ := inv.linking x y linking
    refine ⟨?_, null⟩
    rw [inv.nodes_eq] at follows
    rcases follows_cons.mp follows with ⟨rfl, _⟩ | behind
    · cases next.symm.trans null
    · exact behind
  ends := inv.ends
  ready t given pc := (inv.ready t given pc).imp_left fun outside inside =>
    outside (List.mem_of_mem_tail inside)
  given := inv.given
  distinct := inv.distinct
  contents := by
    change popped ++ s.nodes.tail.filter (· ≠ stub) = s.pushed
    rw [taken, List.append_assoc, ← List.filter_append, List.singleton_append, ← inv.nodes_eq]
    exact inv.contents
  producers := inv.producers
  consumer := by
    cases pc with
    | returned result => cases result <;> exact ok
    | idle | load | loadNext | loadHead => exact ok
    | stubStore => exact absurd rfl (listless s.tail).1
    | stubExchange => exact absurd rfl (listless s.tail).2.1
    | stubLink prev => exact absurd rfl (listless prev).2.2.1
    | reload => exact absurd rfl (listless s.tail).2.2.2

/-- Behind a first node other than the stub, the tail is never the stub. -/
theorem Inv.next_ne_stub (inv : Inv stub s) {node : Node} (atStub : s.tail = stub)
    (next : s.next s.tail = some node) : node ≠ stub := by
  rintro rfl
  have nodup := inv.nodup
  rw [inv.nodes_eq] at nodup
  have member : node ∈ s.nodes.tail := List.mem_of_head? (inv.next_tail next)
  exact (List.nodup_cons.mp nodup).1 (atStub ▸ member)

theorem Inv.stubStore (inv : Inv stub s) (pc : s.consumer = .stubStore) :
    Inv stub { s with next := Function.update s.next stub none, consumer := .stubExchange } := by
  have ok := inv.consumer
  rw [pc] at ok
  obtain ⟨away, outside⟩ := ok
  have kept (x : Node) (member : x ∈ s.nodes) : Function.update s.next stub none x = s.next x := by
    apply Function.update_of_ne
    rintro rfl
    exact outside member
  have linking (x y : Node) : Linking stub { s with
      next := Function.update s.next stub none, consumer := .stubExchange } x y ↔
      Linking stub s x y :=
    linking_of_pop s { s with
      next := Function.update s.next stub none, consumer := .stubExchange } rfl
      (fun _ other => nomatch pc.symm.trans other) nofun x y
  refine ⟨inv.first, inv.last, inv.nodup, ?_, ?_, ?_, ?_, inv.given, inv.distinct, inv.contents,
    inv.producers, away, outside, Function.update_self _ _ _⟩
  · intro x y follows
    rw [linking]
    change Function.update s.next stub none x = _ ∨ Function.update s.next stub none x = _ ∧ _
    rw [kept x follows.mem_first]
    exact inv.links x y follows
  · intro x y links
    obtain ⟨follows, null⟩ := inv.linking x y ((linking x y).mp links)
    exact ⟨follows, (kept x follows.mem_first).trans null⟩
  · exact (kept _ inv.head_mem).trans inv.ends
  · intro t node here
    obtain ⟨out, null⟩ := inv.ready t node here
    have own : node ≠ stub := inv.given t node (by rw [here]; rfl)
    exact ⟨out, (Function.update_of_ne own _ _).trans null⟩

theorem Inv.stubExchange (inv : Inv stub s) (pc : s.consumer = .stubExchange) :
    Inv stub { s with
      head := stub
      consumer := .stubLink s.head
      nodes := s.nodes ++ [stub] } := by
  have ok := inv.consumer
  rw [pc] at ok
  obtain ⟨away, outside, null⟩ := ok
  obtain ⟨nodup, links, linking⟩ := inv.links_concat { s with
      head := stub
      consumer := .stubLink s.head
      nodes := s.nodes ++ [stub] } outside rfl rfl fun x y => by
    constructor
    · rintro (producer | ⟨here, rfl⟩)
      · exact .inl (.inl producer)
      · cases here
        exact .inr ⟨rfl, rfl⟩
    · rintro ((producer | ⟨here, _⟩) | ⟨rfl, rfl⟩)
      · exact .inl producer
      · cases pc.symm.trans here
      · exact .inr ⟨rfl, rfl⟩
  refine ⟨?_, List.getLast?_concat, nodup, links, linking, null, ?_, inv.given, inv.distinct, ?_,
    inv.producers, away, List.mem_append_right _ (List.mem_singleton_self stub)⟩
  · change (s.nodes ++ [stub]).head? = some s.tail
    rw [List.head?_append, inv.first]
    rfl
  · intro t node here
    obtain ⟨out, unlinked⟩ := inv.ready t node here
    have own : node ≠ stub := inv.given t node (by rw [here]; rfl)
    refine ⟨?_, unlinked⟩
    rw [List.mem_append, List.mem_singleton]
    exact not_or_intro out own
  · change s.popped ++ (s.nodes ++ [stub]).filter (· ≠ stub) = s.pushed
    rw [List.filter_append, ← inv.contents]
    simp

theorem Inv.stubLink (inv : Inv stub s) {prev : Node} (pc : s.consumer = .stubLink prev) :
    Inv stub { s with
      next := Function.update s.next prev (some stub)
      consumer := .reload } := by
  have ok := inv.consumer
  rw [pc] at ok
  have mine : Linking stub s prev stub := .inr ⟨pc, rfl⟩
  obtain ⟨joined, null⟩ := inv.linking prev stub mine
  have apart : prev ≠ s.head := by
    rintro rfl
    exact joined.ne_last inv.nodup inv.last
  obtain ⟨links, linking⟩ := inv.links_join { s with
      next := Function.update s.next prev (some stub)
      consumer := .reload } mine rfl rfl fun x y => by
    constructor
    · rintro (⟨t, held, here⟩ | ⟨here, _⟩)
      · refine ⟨.inl ⟨t, held, here⟩, ?_⟩
        rintro ⟨_, rfl⟩
        exact inv.given t y (by rw [here]; rfl) rfl
      · cases here
    · rintro ⟨producer | ⟨here, rfl⟩, differ⟩
      · exact .inl producer
      · cases pc.symm.trans here
        exact absurd ⟨rfl, rfl⟩ differ
  refine ⟨inv.first, inv.last, inv.nodup, links, linking, ?_, ?_, inv.given, inv.distinct,
    inv.contents, inv.producers, ok⟩
  · exact (Function.update_of_ne apart.symm _ _).trans inv.ends
  · intro t node here
    obtain ⟨out, unlinked⟩ := inv.ready t node here
    refine ⟨out, (Function.update_of_ne ?_ _ _).trans unlinked⟩
    rintro rfl
    exact out joined.mem_first

end Facts

section Runs

variable {Node Thread : Type} [DecidableEq Node] {stub : Node} {s after : State Node Thread}

theorem PopStep.inv (inv : Inv stub s) (step : PopStep stub s after) : Inv stub after := by
  have ok := inv.consumer
  cases step with
  | begin free =>
      refine inv.move (fun prev pc => ?_) nofun trivial
      rw [pc] at free
      cases free
  | empty pc atStub next =>
      exact inv.move (fun _ other => nomatch pc.symm.trans other) nofun trivial
  | skip pc atStub next =>
      refine inv.advance next (fun _ other => nomatch pc.symm.trans other) nofun ?_
        (inv.next_ne_stub atStub next) fun _ => ⟨nofun, nofun, nofun, nofun⟩
      simp [atStub]
  | take pc next =>
      have away : s.tail ≠ stub := by
        rcases pc with ⟨_, away⟩ | pc | pc
        · exact away
        · rw [pc] at ok
          exact ok
        · rw [pc] at ok
          exact ok.1
      have elsewhere : ∀ prev, s.consumer ≠ .stubLink prev := by
        intro prev other
        rcases pc with ⟨pc, _⟩ | pc | pc
        all_goals cases pc.symm.trans other
      refine inv.advance next elsewhere nofun ?_ away fun _ => ⟨nofun, nofun, nofun, nofun⟩
      simp [away]
  | miss pc next =>
      have away : s.tail ≠ stub := by
        rcases pc with ⟨_, away⟩ | pc
        · exact away
        · rw [pc] at ok
          exact ok
      have elsewhere : ∀ prev, s.consumer ≠ .stubLink prev := by
        intro prev other
        rcases pc with ⟨pc, _⟩ | pc
        all_goals cases pc.symm.trans other
      exact inv.move elsewhere nofun away
  | behind pc other =>
      exact inv.move (fun _ other => nomatch pc.symm.trans other) nofun trivial
  | last pc same =>
      rw [pc] at ok
      refine inv.move (fun _ other => nomatch pc.symm.trans other) nofun ⟨ok, ?_⟩
      rw [inv.nodes_single same, List.mem_singleton]
      exact Ne.symm ok
  | stubStore pc => exact inv.stubStore pc
  | stubExchange pc => exact inv.stubExchange pc
  | stubLink pc => exact inv.stubLink pc
  | giveUp pc next =>
      exact inv.move (fun _ other => nomatch pc.symm.trans other) nofun trivial

theorem inv_of_reachable [DecidableEq Thread] (reachable : (system Thread stub).Reachable s) :
    Inv stub s := by
  refine reachable.invariant _ ?_ ?_
  · rintro _ ⟨next, null, rfl⟩
    exact inv_init null
  · intro s label after _ inv step
    cases step with
    | push step => exact step.inv inv
    | pop step => exact step.inv inv

end Runs

end NgrCore.MpscQueue
