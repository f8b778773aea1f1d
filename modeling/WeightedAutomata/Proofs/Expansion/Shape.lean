-- The graph of an expansion. Whatever is met behind the start is met through a transition from
-- something met before, so that each state is reached from the start, and is entered from a state
-- with a lower number. A loop stays a loop at the one copy of its state that it enters itself, and
-- is no loop from the other copies.
import WeightedAutomata.Proofs.Analysis
import WeightedAutomata.Proofs.Expansion.BreadthFirst

namespace WeightedAutomata

open Relation Expansion

/-- A transition leads from one state to the other. -/
def Machine.Edge (m : Machine) (s s' : Nat) : Prop :=
  ∃ t ∈ m.transitions, t.source = s ∧ t.target = s'

namespace Machine

variable {m m' : Machine} {origins : List Origin} {k s : Nat} {o : Origin}

/-! ## What can be reached -/

theorem Reaches.reachable (h : m.Reaches o) : ReflTransGen m.Edge 0 o.state := by
  induction h with
  | start => exact .refl
  | next _ ho' ih =>
    obtain ⟨t, ht, rfl⟩ := mem_successors_iff.1 ho'
    obtain ⟨hmem, hsource⟩ := List.mem_filter.1 ht
    exact ih.tail ⟨t, hmem, of_decide_eq_true hsource, rfl⟩

theorem mem_leaving_iff {t : Transition} :
    t ∈ m.leaving s ↔ t ∈ m.transitions ∧ t.source = s := by
  unfold leaving
  rw [List.mem_filter, decide_eq_true_eq]

/-- A state that can be reached is entered with some label. -/
theorem exists_reaches (h : ReflTransGen m.Edge 0 s) : ∃ label, m.Reaches ⟨s, label⟩ := by
  induction h with
  | refl => exact ⟨_, .start⟩
  | tail _ hedge ih =>
    obtain ⟨t, ht, hsource, rfl⟩ := hedge
    obtain ⟨label, hlabel⟩ := ih
    have hleaving : t ∈ m.leaving _ := mem_leaving_iff.2 ⟨ht, hsource⟩
    exact ⟨t.inputLabel, hlabel.next (mem_successors_iff.2 ⟨t, hleaving, rfl⟩)⟩

namespace Splits

/-! ## Edges of the expansion -/

/-- An origin is left by an edge to each origin that it leads to. -/
theorem edge (h : m.Splits origins m') (hk : origins[k]? = some o) {t : Transition}
    (ht : t ∈ m.leaving o.state) {j : Nat} (hj : origins[j]? = some (.of t)) : m'.Edge k j := by
  have himage : image origins k t ∈ m'.leaving k := by
    rw [h.leaving hk]
    exact List.mem_map_of_mem ht
  have htarget := h.getElem?_target hk ht
  have hlt : (image origins k t).target < origins.length :=
    (List.getElem?_eq_some_iff.1 htarget).1
  refine ⟨_, (mem_leaving_iff.1 himage).1, rfl, ?_⟩
  exact (List.getElem?_inj hlt h.nodup).1 (htarget.trans hj.symm)

/-- Every state but the first is entered from one with a lower number. -/
theorem exists_lower (h : m.Splits origins m') (horder : m.MeetsInOrder origins)
    (hs : s < m'.flags.length) (hpos : 0 < s) : ∃ k < s, m'.Edge k s := by
  rw [h.length_flags] at hs
  have hplace := List.getElem?_eq_getElem hs
  obtain ⟨k, hlt, o, hk, hleads⟩ := exists_lead_of_visits horder hpos hplace
  obtain ⟨t, ht, hof⟩ := mem_successors_iff.1 hleads
  exact ⟨k, hlt, h.edge hk ht (hof ▸ hplace)⟩

theorem reachable (h : m.Splits origins m') (horder : m.MeetsInOrder origins)
    (hs : s < m'.flags.length) : ReflTransGen m'.Edge 0 s := by
  induction s using Nat.strong_induction_on with
  | _ s ih =>
    rcases Nat.eq_zero_or_pos s with rfl | hpos
    · exact .refl
    · obtain ⟨k, hlt, hedge⟩ := h.exists_lower horder hs hpos
      exact (ih k hlt (hlt.trans hs)).tail hedge

/-! ## What the graph shows -/

theorem shows_forwardConnected (h : m.Splits origins m') (horder : m.MeetsInOrder origins) :
    m'.Shows .forwardConnected := by
  refine .forwardConnected fun s hs hne => ?_
  obtain ⟨k, hlt, t, ht, hsource, htarget⟩ :=
    h.exists_lower horder hs (Nat.pos_of_ne_zero hne)
  exact ⟨t, ht, htarget, by omega⟩

/-- The expansion loops where a loop of the machine enters the origin that it has itself. -/
theorem shows_loops_iff (h : m.Splits origins m') (horder : m.MeetsInOrder origins) :
    m'.Shows .loops ↔ ∃ s, ReflTransGen m.Edge 0 s ∧ m.Edge s s := by
  refine ⟨?_, ?_⟩
  · intro hshows
    obtain ⟨t', ht', hloop⟩ : ∃ t' ∈ m'.transitions, t'.source = t'.target := by
      cases hshows with
      | loops hloops => exact hloops
    obtain ⟨k, o, t, hk, ht, rfl⟩ := h.exists_of_mem ht'
    have htarget := h.getElem?_target hk ht
    rw [← hloop] at htarget
    obtain rfl : o = .of t := Option.some.inj (hk.symm.trans htarget)
    obtain ⟨hmem, hsource⟩ := mem_leaving_iff.1 ht
    exact ⟨t.target, (horder.mem_iff.1 (List.mem_of_getElem? hk)).reachable, t, hmem, hsource, rfl⟩
  · rintro ⟨s, hreach, t, ht, hsource, rfl⟩
    -- Entered by the loop, the state is left by the loop to the same origin.
    obtain ⟨label, hlabel⟩ := exists_reaches hreach
    have hleaving : t ∈ m.leaving t.target := mem_leaving_iff.2 ⟨ht, hsource⟩
    have hmet : m.Reaches (.of t) := hlabel.next (mem_successors_iff.2 ⟨t, hleaving, rfl⟩)
    obtain ⟨k, hk⟩ := List.getElem?_of_mem (horder.mem_iff.2 hmet)
    obtain ⟨t', ht', hfrom, hto⟩ := h.edge hk hleaving hk
    exact .loops ⟨t', ht', hfrom.trans hto.symm⟩

/-- A state that is left to another state is left so from each of its copies. -/
theorem shows_backwardConnected (h : m.Splits origins m') (hm : m.Shows .backwardConnected) :
    m'.Shows .backwardConnected := by
  have hleft : ∀ s flags, m.flags[s]? = some flags → flags.isFinal = false →
      ∃ t ∈ m.transitions, t.source = s ∧ t.target ≠ s := by
    cases hm with
    | backwardConnected hleft => exact hleft
  refine .backwardConnected fun k flags hflags hfinal => ?_
  have hlt : k < origins.length := h.length_flags ▸ (List.getElem?_eq_some_iff.1 hflags).1
  have hk := List.getElem?_eq_getElem hlt
  rw [h.getElem?_flags hk] at hflags
  obtain ⟨t, ht, hsource, hne⟩ := hleft _ flags hflags hfinal
  have hleaving : t ∈ m.leaving origins[k].state := mem_leaving_iff.2 ⟨ht, hsource⟩
  have hj := h.getElem?_target hk hleaving
  obtain ⟨t', ht', hfrom, hto⟩ := h.edge hk hleaving hj
  refine ⟨t', ht', hfrom, fun heq => hne ?_⟩
  -- Both ends would have one place, and so one state.
  rw [← hto, heq, hk, Option.some.injEq] at hj
  exact (congrArg Origin.state hj).symm

end Splits

/-! ## The expansion of any machine -/

/-- What the graph of an expansion is like, and what it has from the graph of the machine. -/
structure ShapedBy (m' m : Machine) : Prop where
  lower : ∀ s < m'.flags.length, 0 < s → ∃ k < s, m'.Edge k s
  reachable : ∀ s < m'.flags.length, ReflTransGen m'.Edge 0 s
  forwardConnected : m'.Shows .forwardConnected
  loops : m'.Shows .loops ↔ ∃ s, ReflTransGen m.Edge 0 s ∧ m.Edge s s
  backwardConnected : m.Shows .backwardConnected → m'.Shows .backwardConnected

theorem Splits.shapedBy (h : m.Splits origins m') (horder : m.MeetsInOrder origins) :
    m'.ShapedBy m where
  lower := fun _ => h.exists_lower horder
  reachable := fun _ => h.reachable horder
  forwardConnected := h.shows_forwardConnected horder
  loops := h.shows_loops_iff horder
  backwardConnected := h.shows_backwardConnected

/-- A machine without states has neither states to reach nor loops. -/
theorem Closed.shapedBy_of_stateless (hm : m.Closed) (h : m.flags = []) : m.ShapedBy m where
  lower := by simp [h]
  reachable := by simp [h]
  forwardConnected := .forwardConnected (by simp [h])
  loops := by
    refine ⟨?_, ?_⟩
    · intro hshows
      cases hshows with
      | loops hloops => simp [hm.transitions_eq_nil h] at hloops
    · rintro ⟨s, -, hedge⟩
      simp [Edge, hm.transitions_eq_nil h] at hedge
  backwardConnected := id

theorem Fits.exists_expand_shapedBy {schema : Schema} (hm : m.Fits schema) :
    ∃ m', m.expand = .ok m' ∧ m'.Fits schema ∧ m'.ShapedBy m := by
  by_cases hstates : m.flags = []
  · exact ⟨m, expand_of_stateless hm.closed hstates, hm, hm.closed.shapedBy_of_stateless hstates⟩
  · obtain ⟨m', hexpand, hsplits⟩ := splits_scan hm.closed hstates
    exact ⟨m', hexpand, hsplits.fits hm, hsplits.shapedBy (meetsInOrder_scan hm.closed)⟩

end Machine

namespace Automaton

variable {a : Automaton} {u : Nat} {m : Machine}

/-- Each state of an expansion can be reached, and is entered from a state with a lower number. So
an analysis tells that its graph is connected forward. It tells of loops where the unit has a loop
that can be reached, and the graph stays connected backward. -/
theorem analyze_becomeExpansion (hsound : a.violation? = none) (hu : a.machines[u]? = some m)
    (target : Automaton) :
    ∃ d m', target.becomeExpansion a (some u) = .done () d ∧ d.machines = [m'] ∧
      (∀ s < m'.flags.length, ReflTransGen m'.Edge 0 s) ∧
      (∀ s < m'.flags.length, 0 < s → ∃ k < s, m'.Edge k s) ∧
      ∀ mask : Properties, ∃ found found',
        a.analyze (some u) mask = .ok found ∧ d.analyze (some 0) mask = .ok found' ∧
        (found'.contains .forwardConnected = true ↔
          mask.isEmpty = true ∨ mask.contains .forwardConnected = true) ∧
        (found'.contains .loops = true ↔
          (mask.isEmpty = true ∨ mask.contains .loops = true) ∧
            ∃ s, ReflTransGen m.Edge 0 s ∧ m.Edge s s) ∧
        (found.contains .backwardConnected = true → found'.contains .backwardConnected = true) := by
  have hfits := fits_of_violation?_eq_none hsound m (List.mem_of_getElem? hu)
  obtain ⟨m', hexpand, hfits', hshape⟩ := hfits.exists_expand_shapedBy
  have hsound' : (ofMachines a.schema [m'] a.inputSymbols a.outputSymbols).violation? = none :=
    violation?_ofMachines (by simpa using hfits') _ _
  refine ⟨ofMachines a.schema [m'] a.inputSymbols a.outputSymbols, m', ?_,
    machines_ofMachines .., hshape.reachable, hshape.lower, ?_⟩
  · unfold becomeExpansion
    rw [expand_some hsound hu hexpand]
  · intro mask
    have hfirst : (ofMachines a.schema [m'] a.inputSymbols a.outputSymbols).machines[0]? =
        some m' := by
      rw [machines_ofMachines]
      rfl
    obtain ⟨found, hfound, hcontains⟩ := exists_analyze_some hsound hu mask
    obtain ⟨found', hfound', hcontains'⟩ := exists_analyze_some hsound' hfirst mask
    refine ⟨found, found', hfound, hfound', ?_, ?_, ?_⟩
    · rw [hcontains' _ (by decide), and_iff_left hshape.forwardConnected]
    · rw [hcontains' _ (by decide), hshape.loops]
    · rw [hcontains _ (by decide), hcontains' _ (by decide)]
      exact And.imp_right hshape.backwardConnected

/-- State 1 is entered by two labels, and loops with one of them. A state that is not reached loops
too. -/
def loopsAtCopy : Machine where
  name := "copies"
  flags := [0, 1, 1]
  transitions := [{ source := 0, target := 1, input := some (.ofChar 'a') },
    { source := 0, target := 1, input := some (.ofChar 'b') },
    { source := 1, target := 1, input := some (.ofChar 'a') },
    { source := 2, target := 2, input := some (.ofChar 'c') }]

/-- From the copy that `b` enters the loop leads to the copy that `a` enters. -/
example : loopsAtCopy.expand = .ok { loopsAtCopy with
    flags := [0, 1, 1]
    transitions := [{ source := 0, target := 1, input := some (.ofChar 'a') },
      { source := 0, target := 2, input := some (.ofChar 'b') },
      { source := 1, target := 1, input := some (.ofChar 'a') },
      { source := 2, target := 1, input := some (.ofChar 'a') }] } := by cbv

theorem analyze_becomeExpansion_loopsAtCopy :
    (ofMachines .acceptor [⟨"none", [], []⟩, loopsAtCopy]).violation? = none ∧
      (ofMachines .acceptor [⟨"none", [], []⟩, loopsAtCopy]).machines[1]? = some loopsAtCopy ∧
      ∃ d m', (empty .acceptor).becomeExpansion
          (ofMachines .acceptor [⟨"none", [], []⟩, loopsAtCopy]) (some 1) = .done () d ∧
        d.machines = [m'] ∧ (∀ s < m'.flags.length, ReflTransGen m'.Edge 0 s) ∧
        (∀ s < m'.flags.length, 0 < s → ∃ k < s, m'.Edge k s) ∧
        ∃ found, d.analyze (some 0) .none = .ok found ∧
          found.contains .forwardConnected = true ∧ found.contains .loops = true ∧
          found.contains .backwardConnected = true := by
  obtain ⟨d, m', hdone, hmachines, hreachable, hlower, hall⟩ := analyze_becomeExpansion
    (a := ofMachines .acceptor [⟨"none", [], []⟩, loopsAtCopy]) (by decide) (u := 1) rfl
    (empty .acceptor)
  obtain ⟨found, found', hfound, hfound', hforward, hloops, hbackward⟩ := hall .none
  have hloop : ∃ s, ReflTransGen loopsAtCopy.Edge 0 s ∧ loopsAtCopy.Edge s s :=
    ⟨1, .single (by unfold Machine.Edge; decide), by unfold Machine.Edge; decide⟩
  have hleft : found.contains .backwardConnected = true := by
    cases hfound
    decide
  exact ⟨by decide, rfl, d, m', hdone, hmachines, hreachable, hlower, found', hfound',
    hforward.2 (Or.inl (by decide)), hloops.2 ⟨Or.inl (by decide), hloop⟩, hbackward hleft⟩

end Automaton

end WeightedAutomata
