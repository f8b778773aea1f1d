-- What an analysis tells. Five properties of the graph of a unit are decided by counting, at each
-- state, the transitions that come from other states and those that go to other states. What is
-- told has a bit set if some property with that bit holds, and the mask selects it.
import WeightedAutomata.Proofs.Reading
import WeightedAutomata.Topology

namespace WeightedAutomata

/-! ## What can hold -/

/-- What holds of the graph of a machine. -/
inductive Machine.Shows (m : Machine) : Properties → Prop
  /-- A transition ends where it begins. -/
  | loops : (∃ t ∈ m.transitions, t.source = t.target) → Shows m .loops
  /-- Every state but the first is entered from another state. -/
  | forwardConnected :
      (∀ s < m.flags.length, s ≠ 0 → ∃ t ∈ m.transitions, t.target = s ∧ t.source ≠ s) →
        Shows m .forwardConnected
  /-- Every state that is not final is left to another state. -/
  | backwardConnected :
      (∀ s flags, m.flags[s]? = some flags → flags.isFinal = false →
        ∃ t ∈ m.transitions, t.source = s ∧ t.target ≠ s) → Shows m .backwardConnected
  /-- No two transitions from other states enter the same state. -/
  | forwardTree :
      (m.transitions.Pairwise fun t t' => t.source ≠ t.target → t'.source ≠ t'.target →
        t.target ≠ t'.target) → Shows m .forwardTree
  /-- No two transitions to other states leave the same state, unless it is the first. -/
  | backwardTree :
      (m.transitions.Pairwise fun t t' => t.source ≠ t.target → t'.source ≠ t'.target →
        t.source ≠ 0 → t.source ≠ t'.source) → Shows m .backwardTree

/-- What the columns of a schema say of the transitions. -/
inductive Schema.Says (schema : Schema) : Properties → Prop
  | acceptor : schema.input = true → Says schema .acceptor
  | transducer : schema.input = true → schema.output = true → Says schema .transducer
  | weighted : schema.semiring.isSome = true → Says schema .weighted

namespace Properties

/-- Bit `i` is set. -/
def Has (p : Properties) (i : Nat) : Prop := p.bits.toNat.testBit i = true

/-- The properties of graphs. -/
def ofGraphs : List Properties :=
  [loops, forwardConnected, backwardConnected, forwardTree, backwardTree]

/-- What is told are the properties that hold, as far as the mask selects them, and no other bit.
An empty mask selects all. -/
structure Tells (found mask : Properties) (Holds : Properties → Prop) : Prop where
  bits : ∀ i, found.Has i ↔ (mask.isEmpty = true ∨ mask.Has i) ∧ ∃ p, Holds p ∧ p.Has i
  named : ∀ p name, (p, name) ∈ named →
    (found.contains p = true ↔ (mask.isEmpty = true ∨ mask.contains p = true) ∧ Holds p)

/-! ## Bits of sets -/

variable {p q mask : Properties} {i : Nat}

instance (p : Properties) (i : Nat) : Decidable (p.Has i) :=
  inferInstanceAs (Decidable (_ = true))

@[simp] theorem has_none (i : Nat) : ¬ none.Has i := by simp [none, Has]

@[simp] theorem has_union : (p.union q).Has i ↔ p.Has i ∨ q.Has i := by simp [union, Has]

@[simp] theorem has_inter : (p.inter q).Has i ↔ p.Has i ∧ q.Has i := by simp [inter, Has]

@[simp] theorem has_given {condition : Bool} :
    (given condition p).Has i ↔ condition = true ∧ p.Has i := by
  cases condition <;> simp [given]

@[simp] theorem has_select :
    (mask.select p).Has i ↔ (mask.isEmpty = true ∨ mask.Has i) ∧ p.Has i := by
  unfold select
  by_cases h : mask.isEmpty = true
  · simp [h]
  · rw [if_neg h, has_inter, or_iff_right h]
    exact and_comm

theorem ext_has (h : ∀ i, p.Has i ↔ q.Has i) : p = q := by
  have hbits : p.bits.toNat = q.bits.toNat := by
    apply Nat.eq_of_testBit_eq
    intro i
    rw [Bool.eq_iff_iff]
    exact h i
  cases p
  cases q
  simpa [UInt32.toNat_inj] using hbits

theorem contains_iff : p.contains q = true ↔ ∀ i, q.Has i → p.Has i := by
  have hinter : p.contains q = true ↔ p.inter q = q := by
    cases q
    simp [contains, inter]
  rw [hinter]
  refine ⟨?_, ?_⟩
  · intro h i hi
    rw [← h, has_inter] at hi
    exact hi.1
  · intro h
    apply ext_has
    intro i
    rw [has_inter]
    exact and_iff_right_of_imp (h i)

theorem has_topology : topology.Has i ↔ ∃ p ∈ ofGraphs, p.Has i := by
  have hunion : topology = loops.union (forwardConnected.union
      (backwardConnected.union (forwardTree.union backwardTree))) := by decide
  rw [hunion]
  simp [ofGraphs]

/-- No two properties of graphs share a bit. -/
theorem eq_of_has (hp : p ∈ ofGraphs) (hq : q ∈ ofGraphs) (hpi : p.Has i) (hqi : q.Has i) :
    p = q := by
  have hapart : ∀ p ∈ ofGraphs, ∀ q ∈ ofGraphs, p = q ∨ p.inter q = none := by decide
  rcases hapart p hp q hq with heq | hnone
  · exact heq
  · have hboth : (p.inter q).Has i := has_inter.2 ⟨hpi, hqi⟩
    rw [hnone] at hboth
    exact absurd hboth (has_none i)

/-- Each named property has a bit of its own, but that a transducer is an acceptor too. -/
theorem exists_own_bit : ∀ entry ∈ named, ∃ i < 13, entry.1.Has i ∧
    ∀ other ∈ named, other.1.Has i →
      other.1 = entry.1 ∨ entry.1 = acceptor ∧ other.1 = transducer := by
  decide

/-- Where just what is named can hold, and a transducer is an acceptor, the named properties that
are told are those that hold. -/
theorem tells_of_bits {found : Properties} {Holds : Properties → Prop}
    (hbits : ∀ i, found.Has i ↔ (mask.isEmpty = true ∨ mask.Has i) ∧ ∃ p, Holds p ∧ p.Has i)
    (hnamed : ∀ p, Holds p → p ∈ named.map (·.1)) (hboth : Holds transducer → Holds acceptor) :
    found.Tells mask Holds where
  bits := hbits
  named := by
    intro p name hp
    obtain ⟨own, -, hown, hother⟩ := exists_own_bit (p, name) hp
    refine ⟨?_, ?_⟩
    · intro h
      rw [contains_iff] at h
      obtain ⟨-, q, hq, hqi⟩ := (hbits own).1 (h own hown)
      obtain ⟨⟨_, name'⟩, hname', rfl⟩ := List.mem_map.1 (hnamed q hq)
      refine ⟨?_, ?_⟩
      · by_cases hmask : mask.isEmpty = true
        · exact Or.inl hmask
        · refine Or.inr (contains_iff.2 fun i hi => ?_)
          exact ((hbits i).1 (h i hi)).1.resolve_left hmask
      · rcases hother _ hname' hqi with rfl | ⟨hacceptor, htransducer⟩
        · exact hq
        · dsimp only at hacceptor htransducer
          rw [hacceptor]
          exact hboth (htransducer ▸ hq)
    · rintro ⟨hmask, hp⟩
      refine contains_iff.2 fun i hi => (hbits i).2 ⟨hmask.imp_right fun h => ?_, p, hp, hi⟩
      exact contains_iff.1 h i hi

end Properties

/-! ## Counting at states -/

section degrees

variable {ts : List Transition} {direction : Direction} {stateCount s : Nat}

theorem Transition.isLoop_iff (t : Transition) : t.isLoop = true ↔ t.source = t.target := by
  simp [isLoop]

/-- The transitions other than loops with their end at a state. -/
def crossingsAt (direction : Direction) (ts : List Transition) (s : Nat) : List Transition :=
  ts.filter fun t => decide (t.source ≠ t.target ∧ t.endAt direction = s)

theorem getElem?_foldl_degrees (counts : Array Nat) (s : Nat) :
    (ts.foldl (fun counts t => if t.isLoop then counts
      else counts.modify (t.endAt direction) (· + 1)) counts)[s]? =
        counts[s]?.map (· + (crossingsAt direction ts s).length) := by
  induction ts generalizing counts with
  | nil => simp [crossingsAt]
  | cons t ts ih =>
    rw [List.foldl_cons, ih]
    by_cases hloop : t.source = t.target
    · simp [crossingsAt, (t.isLoop_iff).2 hloop, hloop]
    · by_cases hend : t.endAt direction = s
      · simp [crossingsAt, Transition.isLoop, hloop, hend, Array.getElem?_modify, Function.comp_def,
          Nat.add_assoc, Nat.add_comm 1]
      · simp [crossingsAt, Transition.isLoop, hloop, hend, Array.getElem?_modify]

theorem getElem?_degrees (hs : s < stateCount) :
    (degrees stateCount direction ts)[s]?.getD 0 = (crossingsAt direction ts s).length := by
  unfold degrees
  rw [getElem?_foldl_degrees]
  simp [hs]

theorem crossingsAt_cons (direction : Direction) (t : Transition) (ts : List Transition) (s : Nat) :
    crossingsAt direction (t :: ts) s =
      if t.source ≠ t.target ∧ t.endAt direction = s then t :: crossingsAt direction ts s
      else crossingsAt direction ts s := by
  simp [crossingsAt, List.filter_cons]

theorem crossingsAt_pos_iff : 0 < (crossingsAt direction ts s).length ↔
    ∃ t ∈ ts, t.source ≠ t.target ∧ t.endAt direction = s := by
  simp [crossingsAt, List.length_pos_iff_exists_mem]

/-- States have at most one of the transitions each unless two of them meet at one. -/
theorem crossingsAt_le_one_iff (direction : Direction) (ts : List Transition) (P : Nat → Prop) :
    (∀ s, P s → (crossingsAt direction ts s).length ≤ 1) ↔
      ts.Pairwise fun t t' => t.source ≠ t.target → t'.source ≠ t'.target →
        P (t.endAt direction) → t.endAt direction ≠ t'.endAt direction := by
  induction ts with
  | nil => simp [crossingsAt]
  | cons t ts ih =>
    rw [List.pairwise_cons, ← ih]
    by_cases hloop : t.source = t.target
    · simp [crossingsAt_cons, hloop]
    · have hfirst : (∀ t' ∈ ts, t.source ≠ t.target → t'.source ≠ t'.target →
          P (t.endAt direction) → t.endAt direction ≠ t'.endAt direction) ↔
            (P (t.endAt direction) →
              ¬ 0 < (crossingsAt direction ts (t.endAt direction)).length) := by
        rw [crossingsAt_pos_iff]
        refine ⟨?_, ?_⟩
        · rintro h hP ⟨t', ht', hcross, hend⟩
          exact h t' ht' hloop hcross hP hend.symm
        · intro h t' ht' _ hcross hP hend
          exact h hP ⟨t', ht', hcross, hend.symm⟩
      rw [hfirst]
      refine ⟨?_, ?_⟩
      · intro h
        refine ⟨?_, ?_⟩
        · intro hP
          have hle := h _ hP
          simp [crossingsAt_cons, hloop] at hle
          simp [hle]
        · intro s hs
          have hle := h s hs
          rw [crossingsAt_cons] at hle
          split at hle
          · rw [List.length_cons] at hle
            omega
          · exact hle
      · rintro ⟨hnone, hrest⟩ s hs
        rw [crossingsAt_cons]
        split
        · rename_i hend
          have hzero := hnone (hend.2 ▸ hs)
          rw [hend.2] at hzero
          rw [List.length_cons]
          omega
        · exact hrest s hs

end degrees

/-! ## One machine -/

namespace Machine

variable {m : Machine} {i : Nat}

/-- A test of all states, each with its number, its flag byte and what was counted there. -/
theorem all_zipIdx_iff (m : Machine) (holds : Flags → Nat → Nat → Nat → Bool) :
    (m.flags.zipIdx.all fun (flags, s) =>
      holds flags s ((degrees m.flags.length .incoming m.transitions)[s]?.getD 0)
        ((degrees m.flags.length .outgoing m.transitions)[s]?.getD 0)) = true ↔
      ∀ s flags, m.flags[s]? = some flags →
        holds flags s (crossingsAt .incoming m.transitions s).length
          (crossingsAt .outgoing m.transitions s).length = true := by
  have hcounts : ∀ s flags, m.flags[s]? = some flags → ∀ direction,
      (degrees m.flags.length direction m.transitions)[s]?.getD 0 =
        (crossingsAt direction m.transitions s).length :=
    fun s flags hs direction => getElem?_degrees (List.getElem?_eq_some_iff.1 hs).1
  simp only [List.all_eq_true, Prod.forall, List.mem_zipIdx_iff_getElem?]
  refine ⟨?_, ?_⟩
  · intro h s flags hs
    have := h flags s hs
    rwa [hcounts s flags hs, hcounts s flags hs] at this
  · intro h flags s hs
    rw [hcounts s flags hs, hcounts s flags hs]
    exact h s flags hs

theorem connectedForward_iff (m : Machine) :
    (m.flags.zipIdx.all fun (_, s) =>
      s == 0 || decide (0 < (degrees m.flags.length .incoming m.transitions)[s]?.getD 0)) = true ↔
      ∀ s < m.flags.length, s ≠ 0 → ∃ t ∈ m.transitions, t.target = s ∧ t.source ≠ s := by
  rw [m.all_zipIdx_iff fun _ s entered _ => s == 0 || decide (0 < entered)]
  simp only [Bool.or_eq_true, beq_iff_eq, decide_eq_true_eq, crossingsAt_pos_iff]
  refine ⟨?_, ?_⟩
  · intro h s hs hzero
    obtain ⟨t, ht, hcross, rfl⟩ := (h s _ (List.getElem?_eq_getElem hs)).resolve_left hzero
    exact ⟨t, ht, rfl, hcross⟩
  · intro h s flags hs
    by_cases hzero : s = 0
    · exact Or.inl hzero
    · obtain ⟨t, ht, rfl, hcross⟩ := h s (List.getElem?_eq_some_iff.1 hs).1 hzero
      exact Or.inr ⟨t, ht, hcross, rfl⟩

theorem connectedBackward_iff (m : Machine) :
    (m.flags.zipIdx.all fun (flags, s) => flags.isFinal ||
      decide (0 < (degrees m.flags.length .outgoing m.transitions)[s]?.getD 0)) = true ↔
      ∀ s flags, m.flags[s]? = some flags → flags.isFinal = false →
        ∃ t ∈ m.transitions, t.source = s ∧ t.target ≠ s := by
  rw [m.all_zipIdx_iff fun flags _ _ left => flags.isFinal || decide (0 < left)]
  simp only [Bool.or_eq_true, decide_eq_true_eq, crossingsAt_pos_iff]
  refine ⟨?_, ?_⟩
  · intro h s flags hs hfinal
    obtain ⟨t, ht, hcross, rfl⟩ := (h s flags hs).resolve_left (by simp [hfinal])
    exact ⟨t, ht, rfl, hcross.symm⟩
  · intro h s flags hs
    cases hfinal : flags.isFinal with
    | true => exact Or.inl rfl
    | false =>
      obtain ⟨t, ht, rfl, hcross⟩ := h s flags hs hfinal
      exact Or.inr ⟨t, ht, hcross.symm, rfl⟩

/-- Behind the last state nothing is counted. -/
theorem Closed.crossingsAt_eq_nil (hm : m.Closed) {direction : Direction} {s : Nat}
    (hs : m.flags.length ≤ s) : crossingsAt direction m.transitions s = [] := by
  apply List.filter_eq_nil_iff.2
  intro t ht
  have hlt := hm.endAt_lt direction t ht
  have hne : t.endAt direction ≠ s := by omega
  simp [hne]

theorem Closed.treeForward_iff (hm : m.Closed) :
    (m.flags.zipIdx.all fun (_, s) =>
      decide ((degrees m.flags.length .incoming m.transitions)[s]?.getD 0 ≤ 1)) = true ↔
      m.transitions.Pairwise fun t t' => t.source ≠ t.target → t'.source ≠ t'.target →
        t.target ≠ t'.target := by
  rw [m.all_zipIdx_iff fun _ _ entered _ => decide (entered ≤ 1)]
  have hmeet := crossingsAt_le_one_iff .incoming m.transitions fun _ => True
  simp only [forall_const, Transition.endAt] at hmeet
  rw [← hmeet]
  simp only [decide_eq_true_eq]
  refine ⟨?_, fun h s _ _ => h s⟩
  intro h s
  by_cases hs : s < m.flags.length
  · exact h s _ (List.getElem?_eq_getElem hs)
  · simp [hm.crossingsAt_eq_nil (Nat.le_of_not_lt hs)]

theorem Closed.treeBackward_iff (hm : m.Closed) :
    (m.flags.zipIdx.all fun (_, s) => s == 0 ||
      decide ((degrees m.flags.length .outgoing m.transitions)[s]?.getD 0 ≤ 1)) = true ↔
      m.transitions.Pairwise fun t t' => t.source ≠ t.target → t'.source ≠ t'.target →
        t.source ≠ 0 → t.source ≠ t'.source := by
  rw [m.all_zipIdx_iff fun _ s _ left => s == 0 || decide (left ≤ 1)]
  have hmeet := crossingsAt_le_one_iff .outgoing m.transitions (· ≠ 0)
  simp only [Transition.endAt] at hmeet
  rw [← hmeet]
  simp only [Bool.or_eq_true, beq_iff_eq, decide_eq_true_eq]
  refine ⟨?_, ?_⟩
  · intro h s hzero
    by_cases hs : s < m.flags.length
    · exact (h s _ (List.getElem?_eq_getElem hs)).resolve_left hzero
    · simp [hm.crossingsAt_eq_nil (Nat.le_of_not_lt hs)]
  · intro h s flags hs
    by_cases hzero : s = 0
    · exact Or.inl hzero
    · exact Or.inr (h s hzero)

/-- The bits of the properties that the graph shows are set, and no others. -/
theorem Closed.has_topology_iff (hm : m.Closed) :
    m.topology.Has i ↔ ∃ p, m.Shows p ∧ p.Has i := by
  unfold topology
  simp only [Properties.has_union, Properties.has_given, m.connectedForward_iff,
    m.connectedBackward_iff, hm.treeForward_iff, hm.treeBackward_iff, List.any_eq_true,
    Transition.isLoop_iff]
  refine ⟨?_, ?_⟩
  · rintro (⟨h, hi⟩ | ⟨h, hi⟩ | ⟨h, hi⟩ | ⟨h, hi⟩ | ⟨h, hi⟩)
    · exact ⟨_, .loops h, hi⟩
    · exact ⟨_, .forwardConnected h, hi⟩
    · exact ⟨_, .backwardConnected h, hi⟩
    · exact ⟨_, .forwardTree h, hi⟩
    · exact ⟨_, .backwardTree h, hi⟩
  · rintro ⟨p, hp, hi⟩
    cases hp with
    | loops h => exact Or.inl ⟨h, hi⟩
    | forwardConnected h => exact Or.inr (Or.inl ⟨h, hi⟩)
    | backwardConnected h => exact Or.inr (Or.inr (Or.inl ⟨h, hi⟩))
    | forwardTree h => exact Or.inr (Or.inr (Or.inr (Or.inl ⟨h, hi⟩)))
    | backwardTree h => exact Or.inr (Or.inr (Or.inr (Or.inr ⟨h, hi⟩)))

theorem Shows.mem_ofGraphs {p : Properties} (h : m.Shows p) : p ∈ Properties.ofGraphs := by
  cases h <;> simp [Properties.ofGraphs]

end Machine

theorem Schema.Says.not_mem_ofGraphs {schema : Schema} {p : Properties} (h : schema.Says p) :
    p ∉ Properties.ofGraphs := by
  cases h <;> decide

namespace Automaton

variable {a : Automaton} {u i : Nat} {m : Machine}

theorem has_kind_iff (a : Automaton) (i : Nat) :
    a.kind.Has i ↔ ∃ p, a.schema.Says p ∧ p.Has i := by
  unfold kind
  simp only [Properties.has_select, Properties.has_union, Properties.has_given, Bool.and_eq_true]
  rw [and_iff_right (Or.inl (by decide))]
  refine ⟨?_, ?_⟩
  · rintro (⟨h, hi⟩ | ⟨⟨h, h'⟩, hi⟩ | ⟨h, hi⟩)
    · exact ⟨_, .acceptor h, hi⟩
    · exact ⟨_, .transducer h h', hi⟩
    · exact ⟨_, .weighted h, hi⟩
  · rintro ⟨p, hp, hi⟩
    cases hp with
    | acceptor h => exact Or.inl ⟨h, hi⟩
    | transducer h h' => exact Or.inr (Or.inl ⟨⟨h, h'⟩, hi⟩)
    | weighted h => exact Or.inr (Or.inr ⟨h, hi⟩)

/-- What is told of a graph together with the schema. -/
theorem tells_select {topology : Properties} {Holds : Properties → Prop}
    (htopology : ∀ i, topology.Has i ↔ ∃ p, Holds p ∧ p.Has i)
    (hgraphs : ∀ p, Holds p → p ∈ Properties.ofGraphs) (a : Automaton) (mask : Properties) :
    (mask.select (topology.union a.kind)).Tells mask fun p => Holds p ∨ a.schema.Says p := by
  apply Properties.tells_of_bits
  · intro i
    rw [Properties.has_select, Properties.has_union, htopology, a.has_kind_iff]
    simp only [or_and_right, exists_or]
  · rintro p (h | h)
    · have hnamed : ∀ p ∈ Properties.ofGraphs, p ∈ Properties.named.map (·.1) := by decide
      exact hnamed p (hgraphs p h)
    · cases h <;> decide
  · rintro (h | h)
    · exact absurd (hgraphs _ h) (by decide)
    · cases h with
      | transducer hinput _ => exact Or.inr (.acceptor hinput)

/-- A bit that is common to units is one of graphs, and set for each of them. -/
theorem exists_has_commonTopology (hsound : a.violation? = none) {units : List Nat}
    (hunits : ∀ u ∈ units, u < a.units.length) : ∃ common, a.commonTopology units = .ok common ∧
      ∀ i, common.Has i ↔ Properties.topology.Has i ∧
        ∀ u ∈ units, ∀ m, a.machines[u]? = some m → m.topology.Has i := by
  induction units with
  | nil => exact ⟨_, rfl, by simp⟩
  | cons u units ih =>
    obtain ⟨hu, hrest⟩ := List.forall_mem_cons.1 hunits
    obtain ⟨m, hm⟩ := exists_machine hu
    obtain ⟨common, hcommon, hbits⟩ := ih hrest
    refine ⟨m.topology.inter common, ?_, ?_⟩
    · unfold commonTopology
      rw [machineOf_eq hsound hm, hcommon]
      rfl
    · intro i
      rw [Properties.has_inter, hbits, List.forall_mem_cons, hm]
      simp only [Option.some.injEq, forall_eq']
      exact and_left_comm

/-- What is common to all units are the properties that each of their graphs shows. -/
theorem has_common_iff (hsound : a.violation? = none) (i : Nat) :
    (Properties.topology.Has i ∧ ∀ m ∈ a.machines, m.topology.Has i) ↔
      ∃ p, (p ∈ Properties.ofGraphs ∧ ∀ m ∈ a.machines, m.Shows p) ∧ p.Has i := by
  have hclosed : ∀ m ∈ a.machines, m.Closed := fun m hm =>
    (fits_of_violation?_eq_none hsound m hm).closed
  rw [Properties.has_topology]
  refine ⟨?_, ?_⟩
  · rintro ⟨⟨p, hp, hi⟩, hall⟩
    refine ⟨p, ⟨hp, fun m hm => ?_⟩, hi⟩
    obtain ⟨q, hq, hqi⟩ := (hclosed m hm).has_topology_iff.1 (hall m hm)
    rwa [Properties.eq_of_has hp hq.mem_ofGraphs hi hqi]
  · rintro ⟨p, ⟨hp, hall⟩, hi⟩
    exact ⟨⟨p, hp, hi⟩, fun m hm => (hclosed m hm).has_topology_iff.2 ⟨p, hall m hm, hi⟩⟩

theorem analyze_some (hsound : a.violation? = none) (hu : a.machines[u]? = some m)
    (mask : Properties) :
    a.analyze (some u) mask = .ok (mask.select (m.topology.union a.kind)) := by
  have hlt : u < a.units.length := by
    rw [← length_machines]
    exact (List.getElem?_eq_some_iff.1 hu).1
  unfold analyze
  dsimp only
  rw [if_pos hlt, machineOf_eq hsound hu]
  rfl

/-- Of the properties of graphs, an analysis of a unit tells those that its graph shows, as far as
the mask selects them. -/
theorem exists_analyze_some (hsound : a.violation? = none) (hu : a.machines[u]? = some m)
    (mask : Properties) : ∃ found, a.analyze (some u) mask = .ok found ∧
      ∀ p ∈ Properties.ofGraphs, (found.contains p = true ↔
        (mask.isEmpty = true ∨ mask.contains p = true) ∧ m.Shows p) := by
  have hclosed := (fits_of_violation?_eq_none hsound m (List.mem_of_getElem? hu)).closed
  have htells := a.tells_select (fun i => hclosed.has_topology_iff) (fun p hp => hp.mem_ofGraphs)
    mask
  refine ⟨_, analyze_some hsound hu mask, ?_⟩
  intro p hp
  have hname : ∀ p ∈ Properties.ofGraphs, p ∈ Properties.named.map (·.1) := by decide
  obtain ⟨⟨_, name⟩, hnamed, rfl⟩ := List.mem_map.1 (hname p hp)
  rw [htells.named _ name hnamed]
  exact and_congr_right fun _ => or_iff_left fun hsays => hsays.not_mem_ofGraphs hp

/-- An analysis tells what the graph of a unit shows, or those of all units, and what the schema
says, as far as the mask selects it. -/
theorem analyze_exact (hsound : a.violation? = none) (mask : Properties) :
    (∀ u m, a.machines[u]? = some m → ∃ found, a.analyze (some u) mask = .ok found ∧
      found.Tells mask fun p => m.Shows p ∨ a.schema.Says p) ∧
    ∃ found, a.analyze none mask = .ok found ∧ found.Tells mask fun p =>
      (p ∈ Properties.ofGraphs ∧ ∀ m ∈ a.machines, m.Shows p) ∨ a.schema.Says p := by
  refine ⟨?_, ?_⟩
  · intro u m hu
    have hclosed := (fits_of_violation?_eq_none hsound m (List.mem_of_getElem? hu)).closed
    refine ⟨_, analyze_some hsound hu mask, ?_⟩
    exact a.tells_select (fun i => hclosed.has_topology_iff) (fun p hp => hp.mem_ofGraphs) mask
  · have hrange : ∀ u ∈ List.range a.units.length, u < a.units.length := fun u => List.mem_range.1
    obtain ⟨common, hcommon, hbits⟩ := exists_has_commonTopology hsound hrange
    have hall : ∀ i, common.Has i ↔
        ∃ p, (p ∈ Properties.ofGraphs ∧ ∀ m ∈ a.machines, m.Shows p) ∧ p.Has i := by
      intro i
      rw [hbits, ← has_common_iff hsound]
      refine and_congr_right fun _ => ⟨?_, ?_⟩
      · intro h m hm
        obtain ⟨u, hu⟩ := List.getElem?_of_mem hm
        have hlt : u < a.units.length := by
          rw [← length_machines]
          exact (List.getElem?_eq_some_iff.1 hu).1
        exact h u (List.mem_range.2 hlt) m hu
      · exact fun h u _ m hu => h m (List.mem_of_getElem? hu)
    refine ⟨mask.select (common.union a.kind), ?_, a.tells_select hall (fun p hp => hp.1) mask⟩
    unfold analyze
    rw [hcommon]
    rfl

/-- Behind a chain stands a machine whose last state is entered twice from its first, and loops. -/
def chainAndFork : Automaton :=
  ofMachines { input := true, semiring := some .tropical }
    [⟨"chain", [0, 1], [{ source := 0, target := 1, input := some .anyChar, weight := some 0 }]⟩,
      ⟨"fork", [0, 1], [{ source := 0, target := 1, input := some (.ofChar 'a'), weight := some 0 },
        { source := 1, target := 1, input := some .epsilon, weight := some 0 },
        { source := 0, target := 1, input := some (.ofChar 'b'), weight := some 0 }]⟩]

/-- Of the five properties of graphs the fork lacks one, and the chain another one. The mask leaves
out the bits of the schema, but for that of weights. -/
example : chainAndFork.analyze (some 1) ⟨0x1F04⟩ = .ok ⟨0x1704⟩ ∧
    chainAndFork.analyze none ⟨0x1F04⟩ = .ok ⟨0x1604⟩ := ⟨rfl, rfl⟩

theorem analyze_exact_chainAndFork : chainAndFork.violation? = none ∧
    (∀ u m, chainAndFork.machines[u]? = some m → ∃ found,
      chainAndFork.analyze (some u) ⟨0x1F04⟩ = .ok found ∧
        found.Tells ⟨0x1F04⟩ fun p => m.Shows p ∨ chainAndFork.schema.Says p) ∧
    ∃ found, chainAndFork.analyze none ⟨0x1F04⟩ = .ok found ∧ found.Tells ⟨0x1F04⟩ fun p =>
      (p ∈ Properties.ofGraphs ∧ ∀ m ∈ chainAndFork.machines, m.Shows p) ∨
        chainAndFork.schema.Says p :=
  ⟨by decide, analyze_exact (by decide) ⟨0x1F04⟩⟩

end Automaton

end WeightedAutomata
