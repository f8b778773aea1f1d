-- Expanding an expansion. A state of an expansion is entered with one label only, so a second scan
-- has nothing to split. It meets the states in the order of their numbers, and changes nothing.
import WeightedAutomata.Proofs.Expansion.BreadthFirst

namespace WeightedAutomata

open Relation Expansion

namespace Machine

variable {m m' m'' : Machine} {origins met queue : List Origin} {o : Origin}
  {v w : List Origin × List Origin}

/-! ## States as origins -/

/-- What an origin becomes when its state is expanded: the state for it, entered with its label. -/
def again (origins : List Origin) (o : Origin) : Origin := ⟨origins.idxOf o, o.label⟩

theorem again_injOn (origins : List Origin) : Set.InjOn (again origins) {o | o ∈ origins} := by
  intro o ho o' _ heq
  exact (List.idxOf_inj ho).1 (congrArg Origin.state heq)

namespace Splits

theorem again_start (h : m.Splits origins m') : again origins .start = .start := by
  obtain ⟨rest, rfl⟩ := List.head?_eq_some_iff.1 h.first
  simp [again, Origin.start]

/-- The transitions of an expansion lead from state to state as those of the machine lead from
origin to origin. -/
theorem successors_again (h : m.Splits origins m') (ho : o ∈ origins) :
    m'.successors (again origins o) = (m.successors o).map (again origins) := by
  unfold successors
  rw [again, h.leaving (List.getElem?_idxOf ho), List.map_map, List.map_map]
  rfl

theorem successors_subset (h : m.Splits origins m') (ho : o ∈ origins) :
    m.successors o ⊆ origins := by
  intro o' ho'
  obtain ⟨t, ht, rfl⟩ := mem_successors_iff.1 ho'
  exact h.met o ho t ht

/-- A step of the search in the machine is one of the search in its expansion. -/
theorem visits_again (h : m.Splits origins m') (hqueued : v.2 ⊆ v.1) (hmet : v.1 ⊆ origins)
    (hvisits : m.Visits v w) : w.1 ⊆ origins ∧
      m'.Visits (v.map (List.map (again origins)) (List.map (again origins)))
        (w.map (List.map (again origins)) (List.map (again origins))) := by
  obtain ⟨met, queue, o⟩ := hvisits
  have ho : o ∈ origins := hmet (hqueued List.mem_cons_self)
  have hsuccessors := h.successors_subset ho
  have hfresh : fresh (met.map (again origins)) (m'.successors (again origins o)) =
      (fresh met (m.successors o)).map (again origins) := by
    rw [h.successors_again ho]
    exact fresh_map (again_injOn origins) hmet hsuccessors
  refine ⟨List.append_subset.2 ⟨hmet, fun o' ho' => hsuccessors (mem_fresh_iff.1 ho').1⟩, ?_⟩
  simp only [Prod.map, List.map_append, List.map_cons]
  rw [← hfresh]
  exact .visit _ _ _

/-- The search in an expansion meets the states for the origins in their order. -/
theorem meetsInOrder_again (h : m.Splits origins m') (horder : m.MeetsInOrder origins) :
    m'.MeetsInOrder (origins.map (again origins)) := by
  have hall : ∀ v, ReflTransGen m.Visits ([.start], [.start]) v →
      m.Searched v ∧ v.1 ⊆ origins ∧ ReflTransGen m'.Visits ([.start], [.start])
        (v.map (List.map (again origins)) (List.map (again origins))) := by
    intro v hv
    induction hv with
    | refl =>
      have hstart := List.mem_of_mem_head? h.first
      refine ⟨m.searched_start, by simpa using hstart, ?_⟩
      simp only [Prod.map, List.map_singleton, h.again_start]
      exact .refl
    | tail _ hvisits ih =>
      obtain ⟨hsearched, hmet, hway⟩ := ih
      obtain ⟨hmet', hstep⟩ := h.visits_again hsearched.queued hmet hvisits
      exact ⟨hsearched.visits hvisits, hmet', hway.tail hstep⟩
  exact (hall _ horder).2.2

/-! ## The second expansion -/

/-- The image of a transition of an expansion is the transition itself. -/
theorem image_again (h : m.Splits origins m') {k : Nat} (hk : origins[k]? = some o)
    {t : Transition} (ht : t ∈ m.leaving o.state) :
    image (origins.map (again origins)) k (image origins k t) = image origins k t := by
  have hmem : Origin.of t ∈ origins := h.met o (List.mem_of_getElem? hk) t ht
  have htarget : (origins.map (again origins)).idxOf (.of (image origins k t)) =
      origins.idxOf (.of t) := by
    have hplace : (origins.map (again origins))[origins.idxOf (.of t)]? =
        some (.of (image origins k t)) := by
      rw [List.getElem?_map, List.getElem?_idxOf hmem]
      rfl
    have hnodup : (origins.map (again origins)).Nodup :=
      h.nodup.map_on fun _ ho _ ho' heq => again_injOn origins ho ho' heq
    obtain ⟨hlt, heq⟩ := List.getElem?_eq_some_iff.1 hplace
    rw [← heq]
    exact hnodup.idxOf_getElem _ hlt
  unfold image at htarget ⊢
  simp only [htarget]

theorem images_again (h : m.Splits origins m') :
    images m' (origins.map (again origins)) origins.length = m'.transitions := by
  rw [h.transitions]
  unfold images
  rw [List.take_of_length_le (by simp), List.take_length, List.zipIdx_map, List.flatMap_map]
  refine List.flatMap_congr fun ⟨o, k⟩ hk => ?_
  have hplace : origins[k]? = some o := List.mem_zipIdx_iff_getElem?.1 hk
  have hstate : (again origins o).state = k := by
    obtain ⟨hlt, rfl⟩ := List.getElem?_eq_some_iff.1 hplace
    exact h.nodup.idxOf_getElem k hlt
  dsimp only [Prod.map, id]
  rw [hstate, h.leaving hplace, List.map_map]
  exact List.map_congr_left fun t ht => h.image_again hplace ht

theorem flags_again (h : m.Splits origins m') :
    (origins.map (again origins)).map (fun o => m'.flags[o.state]?.getD 0) = m'.flags := by
  apply List.ext_getElem?
  intro k
  rw [List.map_map, List.getElem?_map]
  cases hk : origins[k]? with
  | none =>
    rw [List.getElem?_eq_none_iff, ← h.length_flags, ← List.getElem?_eq_none_iff] at hk
    rw [hk, Option.map_none]
  | some o =>
    obtain ⟨hlt, rfl⟩ := List.getElem?_eq_some_iff.1 hk
    have hlt' : k < m'.flags.length := by rwa [h.length_flags]
    simp [again, h.nodup.idxOf_getElem k hlt, hlt']

/-- What splits the states of an expansion once more is the expansion itself. -/
theorem eq_of_again (h : m.Splits origins m')
    (hagain : m'.Splits (origins.map (again origins)) m'') : m'' = m' := by
  obtain ⟨name'', flags'', transitions''⟩ := m''
  have hname := hagain.name
  have hflags := hagain.flags
  have htransitions := hagain.transitions
  rw [h.flags_again] at hflags
  rw [List.length_map, h.images_again] at htransitions
  dsimp only at hname hflags htransitions
  rw [hname, hflags, htransitions]

end Splits

/-- An expansion is its own expansion. -/
theorem Fits.expand_expand {schema : Schema} (hm : m.Fits schema) (h : m.expand = .ok m') :
    m'.expand = .ok m' := by
  by_cases hstates : m.flags = []
  · rw [m.expand_of_stateless hm.closed hstates, Except.ok.injEq] at h
    rw [← h]
    exact m.expand_of_stateless hm.closed hstates
  · obtain ⟨m₁, hm₁, hsplits⟩ := splits_scan hm.closed hstates
    obtain rfl : m₁ = m' := by rwa [hm₁, Except.ok.injEq] at h
    have hfits := hsplits.fits hm
    have hstates' : m₁.flags ≠ [] := by
      rw [← List.length_pos_iff, hsplits.length_flags, List.length_pos_iff]
      exact List.ne_nil_of_mem (List.mem_of_mem_head? hsplits.first)
    obtain ⟨m'', hm'', hsplits'⟩ := splits_scan hfits.closed hstates'
    have horder := hsplits.meetsInOrder_again (meetsInOrder_scan hm.closed)
    rw [(meetsInOrder_scan hfits.closed).unique horder] at hsplits'
    rw [hm'', hsplits.eq_of_again hsplits']

end Machine

namespace Automaton

variable {a : Automaton}

/-- Expanding the expansion of a unit, or of all units, leaves it as it is. -/
theorem becomeExpansion_again (hsound : a.violation? = none) (target target' : Automaton) :
    (∀ u < a.units.length, ∃ d, target.becomeExpansion a (some u) = .done () d ∧
      target'.becomeExpansion d (some 0) = .done () d) ∧
    ∃ d, target.becomeExpansion a none = .done () d ∧
      target'.becomeExpansion d none = .done () d := by
  have hfits := fits_of_violation?_eq_none hsound
  refine ⟨?_, ?_⟩
  · intro u hu
    obtain ⟨m, hm⟩ := exists_machine hu
    have hmfits := hfits m (List.mem_of_getElem? hm)
    obtain ⟨m', hexpand, hfits'⟩ := hmfits.exists_expand
    have hsound' : (ofMachines a.schema [m'] a.inputSymbols a.outputSymbols).violation? = none :=
      violation?_ofMachines (by simpa using hfits') _ _
    have hfirst : (ofMachines a.schema [m'] a.inputSymbols a.outputSymbols).machines[0]? =
        some m' := by
      rw [machines_ofMachines]
      rfl
    refine ⟨ofMachines a.schema [m'] a.inputSymbols a.outputSymbols, ?_, ?_⟩
    · unfold becomeExpansion
      rw [expand_some hsound hm hexpand]
    · unfold becomeExpansion
      rw [expand_some hsound' hfirst (hmfits.expand_expand hexpand)]
      rfl
  · obtain ⟨ms', hms', hfits', hall⟩ := exists_expand_none hsound
    have hsound' : (ofMachines a.schema ms' a.inputSymbols a.outputSymbols).violation? = none :=
      violation?_ofMachines hfits' _ _
    have hagain : ∀ m' ∈ ms', m'.expand = .ok m' := by
      intro m' hm'
      obtain ⟨m, hm, hexpand⟩ := Machine.exists_of_mem_expand hms' hm'
      exact (hfits m hm).expand_expand hexpand
    have hexpand : (ofMachines a.schema ms' a.inputSymbols a.outputSymbols).machines.mapM
        Machine.expand = .ok ms' := by
      rw [machines_ofMachines, mapM_eq_ok_iff]
      exact List.map_congr_left hagain
    refine ⟨ofMachines a.schema ms' a.inputSymbols a.outputSymbols, ?_, ?_⟩
    · unfold becomeExpansion
      rw [hall]
    · unfold becomeExpansion
      rw [expand_none hsound' hexpand]
      rfl

/-- A loop that goes back to the start, by way of a state that is entered with two labels. -/
def roundTrip : Machine where
  name := "round"
  flags := [0, 0, 3]
  transitions := [{ source := 0, target := 2, input := some (.ofChar 'b') },
    { source := 0, target := 1, input := some (.ofChar 'a') },
    { source := 1, target := 2, input := some (.ofChar 'c') },
    { source := 2, target := 0, input := some (.ofChar 'b') }]

theorem becomeExpansion_again_roundTrip :
    (ofMachines .acceptor [roundTrip, ⟨"none", [], []⟩]).violation? = none ∧
      ∃ d, (empty .acceptor).becomeExpansion (ofMachines .acceptor [roundTrip, ⟨"none", [], []⟩])
          none = .done () d ∧ (empty .transducer).becomeExpansion d none = .done () d :=
  ⟨by decide, (becomeExpansion_again (by decide) (empty .acceptor) (empty .transducer)).2⟩

end Automaton

end WeightedAutomata
