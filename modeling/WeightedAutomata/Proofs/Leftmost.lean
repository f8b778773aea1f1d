-- Finding in a sound automaton. Whatever the limit and with or without a memory, what is found
-- is the leftmost longest way through the graph of unit 0 to a final state, and a search that
-- finds nothing to answer has come to its limit.
import WeightedAutomata.Proofs.Moves

namespace WeightedAutomata

/-! ## Leftmost and longest -/

/-- A match is the longest of all spans with its start, and no span starts before it. No
match means that no span starts before `size`. -/
def IsLeftmostLongest (Spans : Nat → Nat → Prop) (size : Nat) : Option Match → Prop
  | none => ∀ start < size, ∀ stop, ¬ Spans start stop
  | some m => m.start < size ∧ Spans m.start m.stop ∧
      (∀ stop, Spans m.start stop → stop ≤ m.stop) ∧ ∀ start < m.start, ∀ stop, ¬ Spans start stop

theorem IsLeftmostLongest.unique {Spans : Nat → Nat → Prop} {size : Nat} {a b : Option Match}
    (ha : IsLeftmostLongest Spans size a) (hb : IsLeftmostLongest Spans size b) : a = b := by
  rcases a with _ | m <;> rcases b with _ | m'
  · rfl
  · exact absurd hb.2.1 (ha m'.start hb.1 m'.stop)
  · exact absurd ha.2.1 (hb m.start ha.1 m.stop)
  · obtain ⟨-, hspan, hlongest, hleft⟩ := ha
    obtain ⟨-, hspan', hlongest', hleft'⟩ := hb
    have hstart : m.start = m'.start := by
      rcases Nat.lt_trichotomy m.start m'.start with hlt | heq | hlt
      · exact absurd hspan (hleft' _ hlt _)
      · exact heq
      · exact absurd hspan' (hleft _ hlt _)
    have hle := hlongest' _ (hstart ▸ hspan)
    have hle' := hlongest _ (hstart ▸ hspan')
    obtain ⟨start, length⟩ := m
    obtain ⟨start', length'⟩ := m'
    simp only [Match.stop] at hstart hle hle'
    rw [Option.some.injEq, Match.mk.injEq]
    omega

theorem IsLeftmostLongest.congr {Spans Spans' : Nat → Nat → Prop} {size : Nat}
    (h : ∀ start < size, ∀ stop, Spans start stop ↔ Spans' start stop) (found : Option Match) :
    IsLeftmostLongest Spans size found ↔ IsLeftmostLongest Spans' size found := by
  rcases found with _ | m
  · refine ⟨?_, ?_⟩
    · exact fun hnone start hlt stop hspan => hnone start hlt stop ((h start hlt stop).2 hspan)
    · exact fun hnone start hlt stop hspan => hnone start hlt stop ((h start hlt stop).1 hspan)
  · unfold IsLeftmostLongest
    refine and_congr_right fun hlt => ?_
    have hbefore : ∀ start < m.start, ∀ stop, Spans start stop ↔ Spans' start stop :=
      fun start hs => h start (Nat.lt_trans hs hlt)
    refine and_congr (h m.start hlt m.stop) (and_congr ?_ ?_)
    · exact forall_congr' fun stop => imp_congr_left (h m.start hlt stop)
    · exact forall_congr' fun start => forall_congr' fun hs =>
        forall_congr' fun stop => not_congr (hbefore start hs stop)

namespace Automaton

/-! ## What is searched -/

variable {a : Automaton} {m : Machine}

theorem ofUnit_ofMachines (schema : Schema) {ms : List Machine} (inputs outputs : SymbolTable)
    {u : Nat} (direction : Direction) (hu : ms[u]? = some m)
    (hends : ∀ t ∈ m.transitions, t.endAt direction < m.flags.length) :
    TransitionIndex.ofUnit (ofMachines schema ms inputs outputs) u direction =
      .ok (.ofTransitions m.flags.length m.transitions direction) := by
  unfold TransitionIndex.ofUnit
  rw [transitionsOf_ofMachines schema inputs outputs hu, units_ofMachines, hu]
  simp only [Option.map_some, bind, Except.bind]
  rw [if_pos (by simpa using hends)]
  rfl

theorem closed_of_violation?_eq_none (hsound : a.violation? = none)
    (hfirst : a.machines.head? = some m) : m.Closed :=
  (fits_of_violation?_eq_none hsound m (List.mem_of_mem_head? hfirst)).closed

/-- The subject of a search in a sound automaton is its first machine, over the text. -/
theorem exists_subject (hsound : a.violation? = none) (hfirst : a.machines.head? = some m)
    (text : String) : ∃ s, a.subject text = .ok s ∧ s.Presents m text.toList := by
  have hclosed := closed_of_violation?_eq_none hsound hfirst
  obtain ⟨ms, -, ha⟩ := (violation?_eq_none_iff a).1 hsound
  rw [ha, machines_ofMachines] at hfirst
  have hu : ms[0]? = some m := by rw [← List.head?_eq_getElem?, hfirst]
  have hends : ∀ t ∈ m.transitions, t.endAt .outgoing < m.flags.length :=
    fun t ht => (hclosed t ht).1
  refine ⟨⟨(TransitionIndex.ofTransitions m.flags.length m.transitions .outgoing).bundles.map
    fun bundle => bundle.map (·.2), m.flags.toArray, text.toList.toArray⟩, ?_, rfl, ?_, ?_⟩
  · rw [ha, subject, ofUnit_ofMachines _ _ _ _ hu hends, flagsOf_ofMachines _ _ _ hu]
    rfl
  · intro state
    unfold Search.Subject.isFinal Machine.IsFinal
    rw [List.getElem?_toArray]
    rcases m.flags[state]? with _ | flags
    · simp [Flags.isFinal]
    · simp
  · intro state
    refine Eq.trans ?_ (TransitionIndex.transitions_ofTransitions hends state)
    unfold Search.Subject.leaving TransitionIndex.transitions TransitionIndex.bundle
    rw [Array.getElem?_map]
    rcases (TransitionIndex.ofTransitions m.flags.length m.transitions .outgoing).bundles[state]?
    · rfl
    · rfl

/-- Finding in a sound automaton whose first machine has a state is one search of it. -/
theorem find_eq_of_subject (hsound : a.violation? = none) (hfirst : a.machines.head? = some m)
    (hstates : m.flags ≠ []) {text : String} {s : Search.Subject} (hs : a.subject text = .ok s)
    (config : Search.Config) : a.find text config =
      match Search.find s config with
      | .error error => .error (.refused error)
      | .ok found => .ok found := by
  obtain ⟨ms, -, ha⟩ := (violation?_eq_none_iff a).1 hsound
  obtain ⟨rest, rfl⟩ : ∃ rest, ms = m :: rest := by
    rw [ha, machines_ofMachines] at hfirst
    exact List.head?_eq_some_iff.1 hfirst
  have hunits : a.units = ⟨m.name, 0, m.flags.length, 0, m.transitions.length⟩ ::
      rowsOf (0 + m.flags.length) (0 + m.transitions.length) rest := congrArg units ha
  have hlength : m.flags.length ≠ 0 := fun h => hstates (List.length_eq_zero_iff.1 h)
  have hcheck := (check_eq_ok_iff a).2 hsound
  unfold find
  rw [hunits, hcheck]
  dsimp only
  rw [if_neg hlength]
  cases hfound : Search.find s config with
  | error error => simp only [bind, Except.bind, hs, hfound]
  | ok found => simp only [bind, Except.bind, hs, hfound]

/-! ## What is found -/

/-- No match is found from a start before the first one whose search ends with an answer. -/
theorem isLeftmostLongest_of_foundFirst {s : Search.Subject} {text : List Char}
    (hs : s.Presents m text) {config : Search.Config} {found : Option Match}
    (h : Search.FoundFirst s config text.length (.ok found)) :
    IsLeftmostLongest (m.Accepts text) text.length found := by
  rw [← IsLeftmostLongest.congr fun start hlt => hs.spans_iff (Nat.le_of_lt hlt)]
  rcases found with _ | r
  · exact fun start hlt => (h start hlt).no_span
  · obtain ⟨hlt, hquiet, hspan, hlongest, -⟩ := h
    exact ⟨hlt, hspan, hlongest, fun start hstart => (hquiet start hstart).no_span⟩

/-- Finding is a search of the first machine from all starts, whose answer `FoundFirst` tells. -/
theorem exists_foundFirst (hsound : a.violation? = none) (hfirst : a.machines.head? = some m)
    (hstates : m.flags ≠ []) (text : String) (config : Search.Config) :
    ∃ s, a.subject text = .ok s ∧ s.Presents m text.toList ∧
      Search.FoundFirst s config text.toList.length (Search.find s config) ∧
      a.find text config = match Search.find s config with
        | .error error => .error (.refused error)
        | .ok found => .ok found := by
  obtain ⟨s, hs, hpresents⟩ := exists_subject hsound hfirst text
  refine ⟨s, hs, hpresents, ?_, find_eq_of_subject hsound hfirst hstates hs config⟩
  have hsize : s.text.size = text.toList.length := by rw [hpresents.text, List.size_toArray]
  rw [← hsize]
  exact Search.foundFirst_find s config

theorem isLeftmostLongest_of_find (hsound : a.violation? = none)
    (hfirst : a.machines.head? = some m) (hstates : m.flags ≠ []) {text : String}
    {config : Search.Config} {found : Option Match} (h : a.find text config = .ok found) :
    IsLeftmostLongest (m.Accepts text.toList) text.toList.length found := by
  obtain ⟨s, -, hpresents, hanswer, hfind⟩ := exists_foundFirst hsound hfirst hstates text config
  rw [hfind] at h
  split at h
  · cases h
  · rename_i found' hfound
    cases h
    rw [hfound] at hanswer
    exact isLeftmostLongest_of_foundFirst hpresents hanswer

theorem ok_or_depthExceeded_of_find (hsound : a.violation? = none)
    (hfirst : a.machines.head? = some m) (hstates : m.flags ≠ []) (text : String)
    (config : Search.Config) : (∃ found, a.find text config = .ok found) ∨
      a.find text config = .error (.refused (.depthExceeded config.maxDepth)) := by
  obtain ⟨s, -, -, hanswer, hfind⟩ := exists_foundFirst hsound hfirst hstates text config
  rw [hfind]
  split
  · rename_i error herror
    rw [herror] at hanswer
    rw [hanswer.1]
    exact Or.inr rfl
  · exact Or.inl ⟨_, rfl⟩

/-- Finding ends, with an answer or at the limit, and an answer is the leftmost longest match
in the graph of the first machine. -/
theorem find_leftmost_longest (hsound : a.violation? = none)
    (hfirst : a.machines.head? = some m) (hstates : m.flags ≠ []) (text : String)
    (config : Search.Config) :
    (∃ s, a.subject text = .ok s ∧
      WellFounded fun next state => Search.step s config state = .running next) ∧
    ((∃ found, a.find text config = .ok found) ∨
      a.find text config = .error (.refused (.depthExceeded config.maxDepth))) ∧
    ∀ found, a.find text config = .ok found → ∀ r, found = r ↔
      IsLeftmostLongest (m.Accepts text.toList) text.toList.length r := by
  obtain ⟨s, hs, -⟩ := exists_subject hsound hfirst text
  refine ⟨⟨s, hs, Search.step_wellFounded s config⟩,
    ok_or_depthExceeded_of_find hsound hfirst hstates text config, ?_⟩
  intro found hfound r
  have hleftmost := isLeftmostLongest_of_find hsound hfirst hstates hfound
  refine ⟨?_, ?_⟩
  · rintro rfl
    exact hleftmost
  · intro hr
    exact hleftmost.unique hr

/-- Reads one letter a, and can go around its start state without reading. -/
def loopThenA : Machine where
  name := "loop"
  flags := [0, 1]
  transitions := [{ source := 0, target := 0, input := some .epsilon },
    { source := 0, target := 1, input := some (.ofChar 'a') }]

theorem find_leftmost_longest_loopThenA :
    (ofMachines .acceptor [loopThenA]).violation? = none ∧ loopThenA.flags ≠ [] ∧
      ∀ found, (ofMachines .acceptor [loopThenA]).find "ba" = .ok found → ∀ r, found = r ↔
        IsLeftmostLongest (loopThenA.Accepts "ba".toList) "ba".toList.length r :=
  ⟨by decide, by decide, (find_leftmost_longest (by decide) rfl (by decide) "ba" {}).2.2⟩

end Automaton

end WeightedAutomata
