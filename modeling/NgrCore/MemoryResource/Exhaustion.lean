import NgrCore.MemoryResource

/-!
Owns the table `__mmap_` of the regions that `_M_allocate` has mapped. While at most
`__N_` mappings have succeeded every region has its own index of the table, and
`~__remote_source` unmaps exactly these regions. Nothing keeps a further mapping out of
the memory behind the table.
-/

namespace NgrCore.MemoryResource

open NgrCore.Library NgrCore.RemoteSource

section Definitions

variable {Thread : Type} [DecidableEq Thread]

/-- An exhausted table is contained in a state: no store goes past `__mmap_`, a failed mapping
changes nothing, and when no mapping is about to be stored the destructor unmaps what was
mapped. -/
structure Contained (s : State Thread) : Prop where
  index : ∀ t i p, s.remote t = .store i p → i < N
  beyond : ∀ i, N ≤ i → s.mmap i = none
  failed : ∀ t after, Step s (t, .mapFailed) after →
    after.mmap = s.mmap ∧ after.n = s.n ∧ after.ring = s.ring
  unmaps : (∀ t p, s.remote t ≠ .claim p) → (∀ t i p, s.remote t ≠ .store i p) →
    s.unmapped.Perm (s.mapped.map some)

/-- A mapping succeeds only while fewer than `__N_` have succeeded. -/
def Roomy (s : State Thread) (label : Thread × Action) : Prop :=
  label.2 = .map → s.mapped.length < N

/-- The thread is neither before its `fetch_add` nor before its store. -/
def Remote.Calm (remote : Remote) : Prop :=
  (∀ p, remote ≠ .claim p) ∧ ∀ i p, remote ≠ .store i p

/-- The regions by their index of the table, and the calls that still have to claim or fill
one. -/
structure Table (s : State Thread) (slots : List Addr) : Prop where
  size : s.n = BitVec.ofNat 32 slots.length
  short : s.mapped.length ≤ N
  distinct : s.mapped.Nodup
  separate : slots.Nodup
  known : slots ⊆ s.mapped
  claimed : ∀ t p, s.remote t = .claim p → p ∈ s.mapped ∧ p ∉ slots
  single : ∀ t u p, s.remote t = .claim p → s.remote u = .claim p → t = u
  complete : ∀ p ∈ s.mapped, p ∈ slots ∨ ∃ t, s.remote t = .claim p
  storing : ∀ t i p, s.remote t = .store i p → slots[i]? = some p
  stored : ∀ i p, slots[i]? = some p → s.mmap i = some p ∨ ∃ t, s.remote t = .store i p
  beyond : ∀ i, slots.length ≤ i → s.mmap i = none

end Definitions

section Steps

variable {Thread : Type} {s after : State Thread} {slots : List Addr}

theorem Table.length_le (table : Table s slots) : slots.length ≤ s.mapped.length :=
  (table.separate.subperm table.known).length_le

theorem Table.contained [DecidableEq Thread] (table : Table s slots) : Contained s := by
  have enough := table.length_le.trans table.short
  refine ⟨fun t i p pc => ?_, fun i past => table.beyond i (enough.trans past), ?_, ?_⟩
  · exact (List.getElem?_eq_some_iff.mp (table.storing t i p pc)).1.trans_le enough
  · rintro t after ⟨_, step⟩
    cases step with
    | mapFailed pc => exact ⟨rfl, rfl, rfl⟩
  · intro noClaim noStore
    have filled : s.unmapped = slots.map some := by
      have count : s.n.toNat = slots.length := by
        rw [table.size, BitVec.toNat_ofNat]
        exact Nat.mod_eq_of_lt (enough.trans_lt (by decide))
      unfold State.unmapped
      rw [count]
      refine List.ext_getElem (by simp) fun i inside _ => ?_
      rw [List.length_map, List.length_range] at inside
      rw [List.getElem_map, List.getElem_range, List.getElem_map]
      rcases table.stored i _ (List.getElem?_eq_getElem inside) with here | ⟨t, pc⟩
      · exact here
      · exact absurd pc (noStore t i _)
    rw [filled]
    refine ((List.perm_ext_iff_of_nodup table.separate table.distinct).mpr fun p => ?_).map some
    refine ⟨fun member => table.known member, fun member => ?_⟩
    rcases table.complete p member with here | ⟨t, pc⟩
    · exact here
    · exact absurd pc (noClaim t p)

theorem V_pos : 0 < V := by decide

theorem State.Fresh.not_mem {p : Addr} (fresh : s.Fresh p) : p ∉ s.mapped := by
  intro member
  have past : p < p + V := Nat.lt_add_of_pos_right V_pos
  exact (fresh.2.2 p member).elim past.not_ge past.not_ge

variable [DecidableEq Thread] {t : Thread} {remote : Remote}

theorem Table.move (table : Table s slots)
    (calls : after.remote = Function.update s.remote t remote) (before : (s.remote t).Calm)
    (now : remote.Calm) (n : after.n = s.n)
    (mmap : after.mmap = s.mmap) (mapped : after.mapped = s.mapped) : Table after slots := by
  have claims (u : Thread) (p : Addr) : after.remote u = .claim p ↔ s.remote u = .claim p := by
    rw [calls]
    by_cases mine : u = t
    · rw [mine, Function.update_self]
      exact iff_of_false (now.1 p) (before.1 p)
    · rw [Function.update_of_ne mine]
  have stores (u : Thread) (i : Nat) (p : Addr) :
      after.remote u = .store i p ↔ s.remote u = .store i p := by
    rw [calls]
    by_cases mine : u = t
    · rw [mine, Function.update_self]
      exact iff_of_false (now.2 i p) (before.2 i p)
    · rw [Function.update_of_ne mine]
  refine ⟨n ▸ table.size, mapped ▸ table.short, mapped ▸ table.distinct, table.separate,
    mapped ▸ table.known, ?_, ?_, ?_, ?_, ?_, mmap ▸ table.beyond⟩
  · intro u p pc
    rw [mapped]
    exact table.claimed u p ((claims u p).mp pc)
  · intro u v p here there
    exact table.single u v p ((claims u p).mp here) ((claims v p).mp there)
  · intro p member
    simp only [claims]
    exact table.complete p (mapped ▸ member)
  · intro u i p pc
    exact table.storing u i p ((stores u i p).mp pc)
  · intro i p here
    simp only [stores, mmap]
    exact table.stored i p here

theorem go_cases {u : Thread} {other : Remote} (here : (s.go t remote).remote u = other) :
    (u = t ∧ remote = other) ∨ (u ≠ t ∧ s.remote u = other) := by
  change Function.update s.remote t remote u = other at here
  by_cases mine : u = t
  · rw [mine, Function.update_self] at here
    exact .inl ⟨mine, here⟩
  · rw [Function.update_of_ne mine] at here
    exact .inr ⟨mine, here⟩

/-- A thread that does not stand where the one that moves stood is left where it is. -/
theorem go_of_ne {u : Thread} {other : Remote} (here : s.remote u = other)
    (elsewhere : s.remote t ≠ other) : (s.go t remote).remote u = other := by
  refine (Function.update_of_ne ?_ _ _).trans here
  rintro rfl
  exact elsewhere here

theorem Table.map (table : Table s slots) {p : Addr} (pc : s.remote t = .allocate)
    (fresh : s.Fresh p) (room : s.mapped.length < N) :
    Table ({ s with mapped := s.mapped ++ [p] }.go t (.claim p)) slots := by
  have new := fresh.not_mem
  have old (q : Addr) (member : q ∈ s.mapped) : q ∈ s.mapped ++ [p] := List.mem_append_left _ member
  refine ⟨table.size, ?_, ?_, table.separate, fun q member => old q (table.known member), ?_, ?_,
    ?_, ?_, ?_, table.beyond⟩
  · change (s.mapped ++ [p]).length ≤ N
    rw [List.length_append]
    exact room
  · exact List.nodup_append.mpr ⟨table.distinct, List.nodup_singleton p, fun q member r single =>
      List.mem_singleton.mp single ▸ ne_of_mem_of_not_mem member new⟩
  · intro u q here
    rcases go_cases here with ⟨_, same⟩ | ⟨_, here⟩
    · cases same
      exact ⟨List.mem_append_right _ (List.mem_singleton_self p), fun member =>
        new (table.known member)⟩
    · obtain ⟨member, outside⟩ := table.claimed u q here
      exact ⟨old q member, outside⟩
  · intro u v q here there
    rcases go_cases here with ⟨rfl, same⟩ | ⟨_, before⟩
    · rcases go_cases there with ⟨rfl, _⟩ | ⟨_, also⟩
      · rfl
      · cases same
        exact absurd (table.claimed v _ also).1 new
    · rcases go_cases there with ⟨rfl, same⟩ | ⟨_, also⟩
      · cases same
        exact absurd (table.claimed u _ before).1 new
      · exact table.single u v q before also
  · intro q member
    rcases List.mem_append.mp member with before | single
    · refine (table.complete q before).imp_right fun ⟨u, here⟩ => ⟨u, go_of_ne here ?_⟩
      rw [pc]
      nofun
    · rw [List.mem_singleton.mp single]
      exact .inr ⟨t, Function.update_self _ _ _⟩
  · intro u i q here
    rcases go_cases here with ⟨_, same⟩ | ⟨_, here⟩
    · cases same
    · exact table.storing u i q here
  · intro i q here
    refine (table.stored i q here).imp_right fun ⟨u, here⟩ => ⟨u, go_of_ne here ?_⟩
    rw [pc]
    nofun

theorem Table.claim (table : Table s slots) {p : Addr} (pc : s.remote t = .claim p) :
    Table ({ s with n := s.n + 1 }.go t (.store s.n.toNat p)) (slots ++ [p]) := by
  obtain ⟨member, outside⟩ := table.claimed t p pc
  have separate : (slots ++ [p]).Nodup :=
    List.nodup_append.mpr ⟨table.separate, List.nodup_singleton p, fun q inside r single =>
      List.mem_singleton.mp single ▸ ne_of_mem_of_not_mem inside outside⟩
  have known : slots ++ [p] ⊆ s.mapped :=
    List.append_subset.mpr ⟨table.known, List.cons_subset.mpr ⟨member, List.nil_subset _⟩⟩
  have index : s.n.toNat = slots.length := by
    rw [table.size, BitVec.toNat_ofNat]
    exact Nat.mod_eq_of_lt ((table.length_le.trans table.short).trans_lt (by decide))
  refine ⟨?_, table.short, table.distinct, separate, known, ?_, ?_, ?_, ?_, ?_, ?_⟩
  · change s.n + 1 = _
    rw [table.size, List.length_append, List.length_singleton, BitVec.ofNat_add]
    rfl
  · intro u q here
    rcases go_cases here with ⟨_, same⟩ | ⟨apart, here⟩
    · cases same
    · obtain ⟨before, notYet⟩ := table.claimed u q here
      refine ⟨before, fun inside => ?_⟩
      rcases List.mem_append.mp inside with old | single
      · exact notYet old
      · rw [List.mem_singleton.mp single] at here
        exact apart (table.single u t p here pc)
  · intro u v q here there
    rcases go_cases here with ⟨_, same⟩ | ⟨_, before⟩
    · cases same
    · rcases go_cases there with ⟨_, same⟩ | ⟨_, also⟩
      · cases same
      · exact table.single u v q before also
  · intro q inside
    by_cases mine : q = p
    · rw [mine]
      exact .inl (List.mem_append_right _ (List.mem_singleton_self p))
    · rcases table.complete q inside with before | ⟨u, here⟩
      · exact .inl (List.mem_append_left _ before)
      · refine .inr ⟨u, go_of_ne here ?_⟩
        rw [pc]
        rintro ⟨⟩
        exact mine rfl
  · intro u i q here
    rcases go_cases here with ⟨_, same⟩ | ⟨_, here⟩
    · cases same
      rw [index]
      exact List.getElem?_concat_length
    · exact List.getElem?_append_left (List.getElem?_eq_some_iff.mp (table.storing u i q here)).1
        |>.trans (table.storing u i q here)
  · intro i q here
    by_cases last : i = slots.length
    · rw [last, List.getElem?_concat_length] at here
      cases here
      refine .inr ⟨t, ?_⟩
      rw [last, ← index]
      exact Function.update_self _ _ _
    · have inside : i < slots.length := by
        have within := (List.getElem?_eq_some_iff.mp here).1
        rw [List.length_append, List.length_singleton] at within
        omega
      rw [List.getElem?_append_left inside] at here
      refine (table.stored i q here).imp_right fun ⟨u, there⟩ => ⟨u, go_of_ne there ?_⟩
      rw [pc]
      nofun
  · intro i past
    rw [List.length_append, List.length_singleton] at past
    exact table.beyond i (by omega)

theorem Table.store (table : Table s slots) {index : Nat} {p : Addr}
    (pc : s.remote t = .store index p) (calm : remote.Calm) :
    Table ((s.construct index p).go t remote) slots := by
  have mine := table.storing t index p pc
  have inside : index < slots.length := (List.getElem?_eq_some_iff.mp mine).1
  refine ⟨table.size, table.short, table.distinct, table.separate, table.known, ?_, ?_, ?_, ?_,
    ?_, ?_⟩
  · intro u q here
    rcases go_cases here with ⟨_, same⟩ | ⟨_, here⟩
    · exact absurd same (calm.1 q)
    · exact table.claimed u q here
  · intro u v q here there
    rcases go_cases here with ⟨_, same⟩ | ⟨_, before⟩
    · exact absurd same (calm.1 q)
    · rcases go_cases there with ⟨_, same⟩ | ⟨_, also⟩
      · exact absurd same (calm.1 q)
      · exact table.single u v q before also
  · intro q member
    refine (table.complete q member).imp_right fun ⟨u, here⟩ => ⟨u, go_of_ne here ?_⟩
    change s.remote t ≠ _
    rw [pc]
    nofun
  · intro u i q here
    rcases go_cases here with ⟨_, same⟩ | ⟨_, here⟩
    · exact absurd same (calm.2 i q)
    · exact table.storing u i q here
  · intro i q here
    change Function.update s.mmap index (some p) i = some q ∨ _
    by_cases same : i = index
    · rw [same, Function.update_self]
      rw [same, mine] at here
      exact .inl here
    · rw [Function.update_of_ne same]
      refine (table.stored i q here).imp_right fun ⟨u, there⟩ => ⟨u, go_of_ne there ?_⟩
      change s.remote t ≠ _
      rw [pc]
      rintro ⟨⟩
      exact same rfl
  · intro i past
    refine (Function.update_of_ne ?_ _ _).trans (table.beyond i past)
    omega

theorem Table.step (table : Table s slots) {action : Action} (step : Act s t action after)
    (roomy : Roomy s (t, action)) : ∃ slots, Table after slots := by
  cases step with
  | thread idle own move =>
      have calm : (s.remote t).Calm := by
        rw [idle]
        exact ⟨nofun, nofun⟩
      have same := (Function.update_eq_self t s.remote).symm
      exact ⟨slots, table.move same calm calm rfl rfl rfl⟩
  | beginPop _ pc | tryPop pc | refill pc | spin pc | giveUp pc | prepend pc | prepended pc
  | beginPush _ pc | push pc | pushed pc =>
      exact ⟨slots, table.move rfl (by rw [pc]; exact ⟨nofun, nofun⟩) ⟨nofun, nofun⟩ rfl rfl rfl⟩
  | map pc fresh => exact ⟨slots, table.map pc fresh (roomy rfl)⟩
  | mapFailed pc =>
      exact ⟨slots, table.size, table.short, table.distinct, table.separate, table.known,
        table.claimed, table.single, table.complete, table.storing, table.stored, table.beyond⟩
  | claim pc => exact ⟨_, table.claim pc⟩
  | store pc => exact ⟨slots, table.store pc ⟨nofun, nofun⟩⟩

/-- Sixteen mappings fit. -/
theorem contained_of_roomy (reachable : ((system Thread).restrict Roomy).Reachable s) :
    Contained s := by
  have table : ∃ slots, Table s slots := by
    refine reachable.invariant (fun s => ∃ slots, Table s slots) ?_ ?_
    · rintro s rfl
      exact ⟨[], rfl, Nat.zero_le _, List.nodup_nil, List.nodup_nil, List.nil_subset _, nofun,
        nofun, nofun, nofun, nofun, fun _ _ => rfl⟩
    · rintro s ⟨t, action⟩ after _ ⟨slots, table⟩ ⟨roomy, _, step⟩
      exact table.step step roomy
  obtain ⟨slots, table⟩ := table
  exact table.contained

end Steps

/-! ### A seventeenth mapping -/

section Spin

variable {Thread : Type} [DecidableEq Thread] {s after : State Thread} {t : Thread}

theorem go_go (first second : Remote) : (s.go t first).go t second = s.go t second := by
  simp [State.go]

theorem reachable_act {Condition : State Thread → Thread × Action → Prop} {action : Action}
    (reachable : ((system Thread).restrict Condition).Reachable s) (running : s.terminated = false)
    (act : Act s t action after) (meets : Condition s (t, action)) :
    ((system Thread).restrict Condition).Reachable after :=
  reachable.step (show ((system Thread).restrict Condition).Step s (t, action) after from
    ⟨meets, running, act⟩)

variable {Condition : State Thread → Thread × Action → Prop}

theorem reachable_returned (calm : ∀ s, Condition s (t, .ring .other)) {spin : Nat}
    (reachable : ((system Thread).restrict Condition).Reachable s)
    (running : s.terminated = false) (empty : s.ring.state = 0)
    (pc : s.remote t = .pop spin (.tryPop .load)) :
    ((system Thread).restrict Condition).Reachable (s.go t (.pop spin (.returned []))) := by
  have loaded : ((system Thread).restrict Condition).Reachable
      (s.go t (.pop spin (.tryPop (.advance s.ring.state)))) :=
    reachable_act reachable running (.tryPop pc (.tryPop .load)) (calm _)
  have nothing : (convert s.ring.state).head = (convert s.ring.state).tail := by
    rw [empty]
    rfl
  rw [← go_go]
  exact reachable_act loaded running
    (.tryPop (Function.update_self _ _ _) (.tryPop (.empty nothing))) (calm _)

/-- A thread that finds the ring empty all the time gets to `_M_allocate`. -/
theorem reachable_allocate (calm : ∀ s, Condition s (t, .ring .other))
    (quiet : ∀ s, Condition s (t, .other)) (more : Nat) {spin : Nat}
    (count : spin + more = spinThreshold)
    (reachable : ((system Thread).restrict Condition).Reachable s) (running : s.terminated = false)
    (empty : s.ring.state = 0) (pc : s.remote t = .pop spin (.tryPop .load)) :
    ((system Thread).restrict Condition).Reachable (s.go t .allocate) := by
  have failed := reachable_returned calm reachable running empty pc
  induction more generalizing s spin with
  | zero =>
      have reached : ¬ spin < spinThreshold := by omega
      rw [← go_go]
      exact reachable_act failed running (.giveUp (Function.update_self _ _ _) reached) (quiet _)
  | succ more inductionHypothesis =>
      have below : spin < spinThreshold := by omega
      have again := reachable_act failed running (.spin (Function.update_self _ _ _) below)
        (quiet _)
      have here := Function.update_self t (Remote.pop (spin + 1) (.tryPop .load)) s.remote
      rw [go_go] at again
      rw [← go_go]
      exact inductionHypothesis (by omega) again running empty here
        (reachable_returned calm again running empty here)

end Spin

/-- The region of a thread. -/
def region (t : Nat) : Addr := (t + 1) * V

/-- The first threads have each found the ring empty and are about to map a region. -/
def parked (count : Nat) : State Nat where
  heap := { pc := fun t => if t < count then .popping 1 else .idle }
  remote t := if t < count then .allocate else .idle

/-- Seventeen threads are about to map a region, or have claimed an index for it. -/
def claimed (count : Nat) : State Nat where
  heap := { pc := fun t => if t < 17 then .popping 1 else .idle }
  n := BitVec.ofNat 32 count
  remote t := if t < count then .store t (region t) else if t < 17 then .allocate else .idle
  mapped := (List.range count).map region

theorem update_below {α : Type} (count : Nat) (value : Nat → α) (other : Nat → α) :
    Function.update (fun t => if t < count then value t else other t) count (value count) =
      fun t => if t < count + 1 then value t else other t := by
  funext t
  rw [Function.update_apply]
  by_cases same : t = count
  · rw [if_pos same, if_pos (by omega), same]
  · by_cases below : t < count
    · rw [if_neg same, if_pos below, if_pos (by omega)]
    · rw [if_neg same, if_neg below, if_neg (by omega)]

theorem reachable_parked (count : Nat) :
    ((system Nat).restrict Roomy).Reachable (parked count) := by
  induction count with
  | zero => exact .init rfl
  | succ count inductionHypothesis =>
      have idle : (parked count).remote count = .idle := if_neg (Nat.lt_irrefl count)
      have outside : (parked count).heap.pc count = .idle := if_neg (Nat.lt_irrefl count)
      have entered : ((system Nat).restrict Roomy).Reachable
          { parked count with heap := (parked count).heap.go count (.popping 1) } :=
        reachable_act inductionHypothesis rfl
          (.thread idle (.inl rfl) (.acquire outside (by decide : 1 ≤ 1) (by decide))) nofun
      have called := reachable_act entered rfl (.beginPop (Function.update_self _ _ _) idle) nofun
      have allocating := reachable_allocate (fun _ => nofun) (fun _ => nofun) spinThreshold
        (Nat.zero_add _) called rfl rfl (Function.update_self _ _ _)
      rw [go_go] at allocating
      have same : { parked count with heap := (parked count).heap.go count (.popping 1) }.go count
          .allocate = parked (count + 1) := by
        exact congrArg₂ (fun pc remote => ({ heap := { pc }, remote } : State Nat))
          (update_below count (fun _ => LocalSource.Pc.popping 1) _)
          (update_below count (fun _ => Remote.allocate) _)
      exact same ▸ allocating

theorem fresh_region (count : Nat) : (claimed count).Fresh (region count) := by
  refine ⟨Nat.mul_pos (Nat.succ_pos count) V_pos, Dvd.dvd.mul_left (by decide) _, ?_⟩
  intro q member
  obtain ⟨t, below, rfl⟩ := List.mem_map.mp member
  have ahead : t + 1 + 1 ≤ count + 1 := by
    have := List.mem_range.mp below
    omega
  right
  calc (t + 1) * V + V = (t + 1 + 1) * V := (Nat.succ_mul _ _).symm
    _ ≤ (count + 1) * V := Nat.mul_le_mul_right V ahead

theorem act_map {count : Nat} (below : count < 17) :
    Act (claimed count) count .map ({ claimed count with
      mapped := (claimed count).mapped ++ [region count] }.go count (.claim (region count))) := by
  refine .map ?_ (fresh_region count)
  change (if count < count then _ else if count < 17 then _ else _) = _
  rw [if_neg (Nat.lt_irrefl count), if_pos below]

theorem act_claim {count : Nat} (below : count < 17) :
    Act ({ claimed count with mapped := (claimed count).mapped ++ [region count] }.go count
      (.claim (region count))) count .other (claimed (count + 1)) := by
  have index : (BitVec.ofNat 32 count).toNat = count := by
    rw [BitVec.toNat_ofNat]
    exact Nat.mod_eq_of_lt (by omega)
  have remotes : Function.update
      (Function.update (claimed count).remote count (.claim (region count))) count
      (.store (BitVec.ofNat 32 count).toNat (region count)) = (claimed (count + 1)).remote := by
    rw [Function.update_idem, index]
    exact update_below count (fun t => Remote.store t (region t))
      fun t => if t < 17 then .allocate else .idle
  have regions : (List.range count).map region ++ [region count] =
      (List.range (count + 1)).map region := by
    rw [List.range_succ, List.map_append]
    rfl
  have size : BitVec.ofNat 32 count + 1 = BitVec.ofNat 32 (count + 1) :=
    (BitVec.ofNat_add count 1).symm
  have same : { claimed count with
      n := BitVec.ofNat 32 count + 1
      remote := Function.update
        (Function.update (claimed count).remote count (.claim (region count))) count
        (.store (BitVec.ofNat 32 count).toNat (region count))
      mapped := (List.range count).map region ++ [region count] } = claimed (count + 1) := by
    rw [remotes, regions, size]
    rfl
  rw [← same]
  exact .claim (Function.update_self _ _ _)

theorem reachable_claimed (count : Nat) (enough : count ≤ N) :
    ((system Nat).restrict Roomy).Reachable (claimed count) := by
  induction count with
  | zero => exact reachable_parked 17
  | succ count inductionHypothesis =>
      have below : count < 17 := Nat.lt_of_lt_of_le enough (by decide)
      have room : (claimed count).mapped.length < N := by
        change ((List.range count).map region).length < N
        rw [List.length_map, List.length_range]
        exact enough
      have mapped := reachable_act (inductionHypothesis (Nat.le_of_lt enough)) rfl
        (act_map below) fun _ => room
      exact reachable_act mapped rfl (act_claim below) nofun

/-- Sixteen threads fill the table. -/
theorem contained_full : Contained (claimed N) :=
  contained_of_roomy (reachable_claimed N (Nat.le_refl N))

/-- Seventeen threads that find the ring empty at the same time map seventeen regions, and
the last one is stored behind the table. -/
theorem stored_past_table : ¬ ∀ s : State Nat, (system Nat).Reachable s → Contained s := by
  intro every
  have full := (reachable_claimed N (Nat.le_refl N)).of_restrict
  have mapped := full.step (show (system Nat).Step (claimed N) (N, .map) _ from
    ⟨rfl, act_map (by decide)⟩)
  have stored := mapped.step (show (system Nat).Step _ (N, .other) (claimed (N + 1)) from
    ⟨rfl, act_claim (by decide)⟩)
  have last : (claimed (N + 1)).remote N = .store N (region N) := rfl
  exact absurd ((every _ stored).index N N _ last) (by decide)

end NgrCore.MemoryResource
