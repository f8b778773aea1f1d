-- Reading sound tables. Nothing that is read from them is missing: each unit reads as its
-- machine, can be indexed, looked at as a graph, reported on and searched. While the tables are
-- small, all numbers that come up are 32-bit numbers.
import WeightedAutomata.Proofs.Integrity
import WeightedAutomata.Proofs.Leftmost
import WeightedAutomata.Proofs.Search.Range
import WeightedAutomata.Report

namespace WeightedAutomata

/-! ## Offsets of an index -/

theorem Machine.Closed.endAt_lt {m : Machine} (hm : m.Closed) (direction : Direction) :
    ∀ t ∈ m.transitions, t.endAt direction < m.flags.length := by
  intro t ht
  cases direction with
  | outgoing => exact (hm t ht).1
  | incoming => exact (hm t ht).2

/-- Where the bundle of a state begins when the bundles stand one behind the other. -/
def TransitionIndex.offset (index : TransitionIndex) : Nat → Nat
  | 0 => 0
  | state + 1 => index.offset state + index.degree state

namespace TransitionIndex

variable {ts : List Transition} {direction : Direction} {stateCount : Nat}

theorem length_filter_add_length_filter (ts : List Transition) (key : Transition → Nat) (n : Nat) :
    (ts.filter fun t => key t < n + 1).length =
      (ts.filter fun t => key t < n).length + (ts.filter fun t => key t = n).length := by
  induction ts with
  | nil => rfl
  | cons t ts ih =>
    simp only [List.filter_cons, decide_eq_true_eq]
    rcases Nat.lt_trichotomy (key t) n with hlt | heq | hgt
    · rw [if_pos (by omega), if_pos hlt, if_neg (by omega), List.length_cons, List.length_cons, ih]
      omega
    · rw [if_pos (by omega), if_neg (by omega), if_pos heq, List.length_cons, List.length_cons, ih]
      omega
    · rw [if_neg (by omega), if_neg (by omega), if_neg (by omega), ih]

theorem offset_eq_length (h : ∀ t ∈ ts, t.endAt direction < stateCount) (state : Nat) :
    (ofTransitions stateCount ts direction).offset state =
      (ts.filter fun t => t.endAt direction < state).length := by
  induction state with
  | zero => simp [offset]
  | succ state ih =>
    have hdegree : (ofTransitions stateCount ts direction).degree state =
        (ts.filter fun t => t.endAt direction = state).length := by
      rw [← transitions_ofTransitions h]
      exact (List.length_map _).symm
    rw [offset, ih, hdegree, ← length_filter_add_length_filter]

theorem offset_le (h : ∀ t ∈ ts, t.endAt direction < stateCount) (state : Nat) :
    (ofTransitions stateCount ts direction).offset state ≤ ts.length := by
  rw [offset_eq_length h]
  exact List.length_filter_le _ _

end TransitionIndex

/-! ## Degrees -/

theorem le_of_mem_modify {counts : Array Nat} {i n count : Nat} (hn : ∀ c ∈ counts, c ≤ n)
    (h : count ∈ counts.modify i (· + 1)) : count ≤ n + 1 := by
  obtain ⟨k, hk⟩ := Array.getElem?_of_mem h
  rw [Array.getElem?_modify] at hk
  split at hk
  · obtain ⟨c, hc, rfl⟩ := Option.map_eq_some_iff.1 hk
    exact Nat.succ_le_succ (hn c (Array.mem_of_getElem? hc))
  · exact Nat.le_succ_of_le (hn count (Array.mem_of_getElem? hk))

theorem le_of_mem_foldl {direction : Direction} {ts : List Transition} {counts : Array Nat}
    {n count : Nat} (hn : ∀ c ∈ counts, c ≤ n)
    (h : count ∈ ts.foldl (fun counts t => if t.isLoop then counts
      else counts.modify (t.endAt direction) (· + 1)) counts) : count ≤ n + ts.length := by
  induction ts generalizing counts n with
  | nil => exact hn count h
  | cons t ts ih =>
    have hstep : ∀ c ∈ (if t.isLoop then counts
        else counts.modify (t.endAt direction) (· + 1)), c ≤ n + 1 := by
      intro c hc
      split at hc
      · exact Nat.le_succ_of_le (hn c hc)
      · exact le_of_mem_modify hn hc
    have hle := ih hstep h
    rw [List.length_cons]
    omega

/-- No state has more transitions at one end than there are. -/
theorem le_of_mem_degrees {stateCount count : Nat} {direction : Direction} {ts : List Transition}
    (h : count ∈ degrees stateCount direction ts) : count ≤ ts.length := by
  unfold degrees at h
  have hle := le_of_mem_foldl (n := 0) ?_ h
  · omega
  · simp

namespace Automaton

variable {a : Automaton} {u : Nat} {m : Machine}

/-! ## Units -/

/-- The rows of a unit are in the tables. -/
theorem rows_within (hsound : a.violation? = none) {row : UnitRow} (hrow : row ∈ a.units) :
    row.firstState + row.stateCount ≤ a.states.length ∧
      row.firstTransition + row.transitionCount ≤ a.transitions.length := by
  obtain ⟨u, hu⟩ := List.getElem?_of_mem hrow
  rw [eq_ofMachines hsound] at hu ⊢
  rw [units_ofMachines, Option.map_eq_some_iff] at hu
  obtain ⟨m, hm, rfl⟩ := hu
  simp only [ofMachines]
  rw [flatMap_take_cons_drop _ hm, flatMap_take_cons_drop (·.transitions) hm]
  simp only [List.length_append]
  omega

theorem lengths_le (hsound : a.violation? = none) (hu : a.machines[u]? = some m) :
    m.flags.length ≤ a.states.length ∧ m.transitions.length ≤ a.transitions.length := by
  obtain ⟨row, hrow, hstates, htransitions⟩ := exists_row hsound hu
  have hwithin := rows_within hsound (List.mem_of_getElem? hrow)
  omega

theorem isFinal_eq (hsound : a.violation? = none) (hu : a.machines[u]? = some m) (state : Nat) :
    a.isFinal u state = .ok (m.flags[state]?.getD 0).isFinal := by
  rw [eq_ofMachines hsound]
  unfold isFinal
  rw [units_ofMachines, hu]
  simp only [Option.map_some]
  by_cases hstate : state < m.flags.length
  · have hflags : (ofMachines a.schema a.machines a.inputSymbols a.outputSymbols).states[
        ((a.machines.take u).flatMap (·.flags)).length + state]? = m.flags[state]? := by
      simp only [ofMachines]
      rw [flatMap_take_cons_drop _ hu, List.getElem?_append_right (Nat.le_add_right _ _),
        Nat.add_sub_cancel_left, List.getElem?_append_left hstate]
    rw [if_pos hstate, hflags, List.getElem?_eq_getElem hstate]
    rfl
  · rw [if_neg hstate, List.getElem?_eq_none (Nat.le_of_not_lt hstate)]
    rfl

theorem exists_isFinal (hsound : a.violation? = none) (u state : Nat) :
    ∃ final, a.isFinal u state = .ok final := by
  rcases hu : a.machines[u]? with _ | m
  · unfold isFinal
    rw [(machines_eq_none_iff a u).1 hu]
    exact ⟨false, rfl⟩
  · exact ⟨_, isFinal_eq hsound hu state⟩

/-! ## Graphs -/

theorem exists_commonTopology (hsound : a.violation? = none) {units : List Nat}
    (hunits : ∀ u ∈ units, u < a.units.length) : ∃ common, a.commonTopology units = .ok common := by
  induction units with
  | nil => exact ⟨_, rfl⟩
  | cons u units ih =>
    obtain ⟨hu, hrest⟩ := List.forall_mem_cons.1 hunits
    obtain ⟨m, hm⟩ := exists_machine hu
    obtain ⟨common, hcommon⟩ := ih hrest
    unfold commonTopology
    rw [machineOf_eq hsound hm, hcommon]
    exact ⟨_, rfl⟩

/-- Looking at a graph fails only where the unit does not exist. -/
theorem exists_analyze (hsound : a.violation? = none) (unit : Option Nat) (mask : Properties) :
    (∃ found, a.analyze unit mask = .ok found) ∨ ∃ u, unit = some u ∧
      a.analyze unit mask = .error (.refused (.badUnit u a.units.length)) := by
  unfold analyze
  cases unit with
  | none =>
    have hrange : ∀ u ∈ List.range a.units.length, u < a.units.length := fun u => List.mem_range.1
    obtain ⟨common, hcommon⟩ := exists_commonTopology hsound hrange
    rw [hcommon]
    exact Or.inl ⟨_, rfl⟩
  | some u =>
    by_cases hu : u < a.units.length
    · obtain ⟨m, hm⟩ := exists_machine hu
      dsimp only
      rw [if_pos hu, machineOf_eq hsound hm]
      exact Or.inl ⟨_, rfl⟩
    · dsimp only
      rw [if_neg hu]
      exact Or.inr ⟨u, rfl, rfl⟩

/-! ## Reports -/

/-- Tables whose rows have 32-bit numbers, with two to spare. -/
def Small (a : Automaton) : Prop :=
  a.states.length + 2 < UInt32.size ∧ a.transitions.length + 2 < UInt32.size

instance (a : Automaton) : Decidable a.Small := inferInstanceAs (Decidable (_ ∧ _))

theorem ahead_eq {state steps : Nat} (h : state + steps < UInt32.size) :
    Report.ahead state steps = .ok (state + steps) := if_pos h

theorem exists_shape (hsound : a.violation? = none) (u : Nat) {t : Transition}
    (ht : t.source + 2 < UInt32.size) : ∃ word, Report.shape a u t = .ok word := by
  obtain ⟨final, hfinal⟩ := exists_isFinal hsound u t.target
  unfold Report.shape
  rw [hfinal, ahead_eq ht, ahead_eq (by omega)]
  simp only [bind, Except.bind, pure, Except.pure]
  split
  · exact ⟨_, rfl⟩
  · split
    · exact ⟨_, rfl⟩
    · split
      · exact ⟨_, rfl⟩
      · split
        · exact ⟨_, rfl⟩
        · split
          · exact ⟨_, rfl⟩
          · exact ⟨_, rfl⟩

theorem exists_stateText (hsound : a.violation? = none) (u state : Nat) :
    ∃ text, Report.stateText a u state = .ok text := by
  obtain ⟨final, hfinal⟩ := exists_isFinal hsound u state
  unfold Report.stateText
  rw [hfinal]
  exact ⟨_, rfl⟩

theorem exists_transitionLine (hsound : a.violation? = none) (u number : Nat) {t : Transition}
    (ht : t.source + 2 < UInt32.size) :
    ∃ line, Report.transitionLine a u number t = .ok line := by
  obtain ⟨source, hsource⟩ := exists_stateText hsound u t.source
  obtain ⟨target, htarget⟩ := exists_stateText hsound u t.target
  obtain ⟨word, hword⟩ := exists_shape hsound u ht
  unfold Report.transitionLine
  rw [hsource, htarget, hword]
  exact ⟨_, rfl⟩

theorem exists_transitionLines (hsound : a.violation? = none) (hsmall : a.Small)
    (hu : u < a.units.length) : ∃ lines, Report.transitionLines a u = .ok lines := by
  obtain ⟨m, hm⟩ := exists_machine hu
  have hclosed := (fits_of_violation?_eq_none hsound m (List.mem_of_getElem? hm)).closed
  have hlines : ∀ entry ∈ m.transitions.zipIdx, ∃ line,
      Report.transitionLine a u entry.2 entry.1 = .ok line := by
    intro entry hentry
    have hsource := (hclosed entry.1 (List.fst_mem_of_mem_zipIdx hentry)).1
    have hle := (lengths_le hsound hm).1
    have := hsmall.1
    exact exists_transitionLine hsound u entry.2 (by omega)
  obtain ⟨lines, hall⟩ := exists_mapM_eq_ok hlines
  unfold Report.transitionLines
  rw [transitionsOf_eq hsound hm]
  simp only [bind, Except.bind]
  rw [hall]
  exact ⟨_, rfl⟩

theorem exists_unitLines (hsound : a.violation? = none) (hsmall : a.Small) (listing : Bool)
    (hu : u < a.units.length) (row : UnitRow) :
    ∃ lines, Report.unitLines a listing u row = .ok lines := by
  obtain ⟨m, hm⟩ := exists_machine hu
  obtain ⟨lines, hlines⟩ := exists_transitionLines hsound hsmall hu
  unfold Report.unitLines
  rw [machineOf_eq hsound hm, hlines]
  simp only [bind, Except.bind]
  split
  · exact ⟨_, rfl⟩
  · exact ⟨_, rfl⟩

/-- Small sound tables have a summary and a listing. -/
theorem exists_write (hsound : a.violation? = none) (hsmall : a.Small) (listing : Bool) :
    ∃ text, Report.write a listing = .ok text := by
  have hunits : ∀ entry ∈ a.units.zipIdx, ∃ lines,
      Report.unitLines a listing entry.2 entry.1 = .ok lines := by
    intro entry hentry
    have hlt := List.snd_lt_of_mem_zipIdx hentry
    exact exists_unitLines hsound hsmall listing (by omega) entry.1
  obtain ⟨lines, hall⟩ := exists_mapM_eq_ok hunits
  unfold Report.write
  simp only [bind, Except.bind]
  rw [hall]
  exact ⟨_, rfl⟩

/-! ## Searches -/

/-- The subject of a search has the flags of its machine, and its transitions stay among them. -/
theorem bounded_subject (hsound : a.violation? = none) {text : String} {s : Search.Subject}
    (hs : a.subject text = .ok s) : s.Bounded := by
  rcases hfirst : a.machines.head? with _ | m
  · have hunits : a.units[0]? = none := by
      rw [← machines_eq_none_iff, ← List.head?_eq_getElem?, hfirst]
    unfold subject TransitionIndex.ofUnit transitionsOf at hs
    rw [hunits] at hs
    cases hs
  · obtain ⟨s', hs', hpresents⟩ := exists_subject hsound hfirst text
    rw [hs, Except.ok.injEq] at hs'
    subst hs'
    have hflags : s.flags = m.flags.toArray := by
      have hflagsOf : a.flagsOf 0 = .ok m.flags :=
        flagsOf_eq hsound (by rw [← List.head?_eq_getElem?, hfirst])
      unfold subject at hs
      rw [hflagsOf] at hs
      cases hindex : TransitionIndex.ofUnit a 0 .outgoing with
      | error fault =>
        rw [hindex] at hs
        cases hs
      | ok index =>
        rw [hindex] at hs
        cases hs
        rfl
    intro state t ht
    rw [hpresents.leaving] at ht
    rw [hflags, List.size_toArray]
    exact (closed_of_violation?_eq_none hsound hfirst t (List.mem_filter.1 ht).1).2

/-- Finding does not break. -/
theorem find_ne_broken (hsound : a.violation? = none) (text : String) (config : Search.Config)
    (fault : Fault) : a.find text config ≠ .error (.broken fault) := by
  intro h
  rcases hfirst : a.machines.head? with _ | m
  · have hunits : a.units = [] := by
      rwa [List.head?_eq_none_iff, machines, List.map_eq_nil_iff] at hfirst
    unfold find at h
    rw [hunits] at h
    cases h
  · by_cases hstates : m.flags = []
    · rw [List.head?_eq_getElem?] at hfirst
      obtain ⟨row, hrow, hcount, -⟩ := exists_row hsound hfirst
      rw [← List.head?_eq_getElem?] at hrow
      obtain ⟨rest, hunits⟩ := List.head?_eq_some_iff.1 hrow
      unfold find at h
      rw [hunits] at h
      dsimp only at h
      rw [if_pos (by rw [hcount, hstates]; rfl)] at h
      cases h
    · rcases ok_or_depthExceeded_of_find hsound hfirst hstates text config with hok | herror
      · obtain ⟨found, hfound⟩ := hok
        rw [hfound] at h
        cases h
      · rw [herror] at h
        cases h

/-! ## All readings -/

/-- Every reading has an answer or is refused, nothing that is looked up is missing, and all
offsets and counts are 32-bit numbers. -/
structure Readable (a : Automaton) : Prop where
  rows : ∀ row ∈ a.units, row.firstState + row.stateCount ≤ a.states.length ∧
    row.firstTransition + row.transitionCount ≤ a.transitions.length
  units : ∀ u < a.units.length, ∃ m : Machine, a.flagsOf u = .ok m.flags ∧
    a.transitionsOf u = .ok m.transitions ∧ m.Closed ∧
      ∀ direction, ∀ count ∈ degrees m.flags.length direction m.transitions, count < UInt32.size
  indices : ∀ u < a.units.length, ∀ direction, ∃ index,
    TransitionIndex.ofUnit a u direction = .ok index ∧ ∀ state, index.offset state < UInt32.size
  finals : ∀ u state, ∃ final, a.isFinal u state = .ok final
  graphs : ∀ unit mask fault, a.analyze unit mask ≠ .error (.broken fault)
  summary : ∃ text, a.summary = .ok text
  listing : ∃ text, a.listing = .ok text
  found : ∀ text config fault, a.find text config ≠ .error (.broken fault)
  searched : ∀ text config s state, a.subject text = .ok s → 0 < s.flags.size →
    Search.Visits s config state → state.Within s

theorem readable (hsound : a.violation? = none) (hsmall : a.Small) : a.Readable where
  rows := fun _ => rows_within hsound
  units := by
    intro u hu
    obtain ⟨m, hm⟩ := exists_machine hu
    have hclosed := (fits_of_violation?_eq_none hsound m (List.mem_of_getElem? hm)).closed
    refine ⟨m, flagsOf_eq hsound hm, transitionsOf_eq hsound hm, hclosed, ?_⟩
    intro direction count hcount
    have hle := le_of_mem_degrees hcount
    have hlength := (lengths_le hsound hm).2
    have := hsmall.2
    omega
  indices := by
    intro u hu direction
    obtain ⟨m, hm⟩ := exists_machine hu
    have hclosed := (fits_of_violation?_eq_none hsound m (List.mem_of_getElem? hm)).closed
    have hends := hclosed.endAt_lt direction
    refine ⟨.ofTransitions m.flags.length m.transitions direction, ?_, ?_⟩
    · rw [eq_ofMachines hsound]
      exact ofUnit_ofMachines _ _ _ direction hm hends
    · intro state
      have hle := TransitionIndex.offset_le hends state
      have hlength := (lengths_le hsound hm).2
      have := hsmall.2
      omega
  finals := exists_isFinal hsound
  graphs := by
    intro unit mask fault h
    rcases exists_analyze hsound unit mask with ⟨found, hfound⟩ | ⟨u, -, hrefused⟩
    · rw [hfound] at h
      cases h
    · rw [hrefused] at h
      cases h
  summary := exists_write hsound hsmall false
  listing := exists_write hsound hsmall true
  found := find_ne_broken hsound
  searched := fun _ _ _ _ hs hstates hvisits => hvisits.within (bounded_subject hsound hs) hstates

end Automaton

end WeightedAutomata
