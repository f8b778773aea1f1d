-- Paths of an expansion. A path is told by the numbers of its transitions, since two transitions
-- may be alike in all they carry. Each path of a machine from its start is the path of the
-- expansion that goes from split to split along the images of its transitions, and no other.
import Mathlib.Data.List.Nodup
import Mathlib.Logic.Equiv.Basic
import WeightedAutomata.Proofs.Expansion.Units

namespace WeightedAutomata

open Expansion

/-! ## Paths -/

/-- What a transition carries: its labels and its weight. -/
def Transition.carried (t : Transition) : Option Label × Option Label × Option Float :=
  (t.input, t.output, t.weight)

/-- Going along the transitions with the given numbers leads from one state to another. -/
inductive Machine.Follows (m : Machine) : Nat → List Nat → Nat → Prop
  | stay (s : Nat) : Follows m s [] s
  | go {t : Transition} {i : Nat} {numbers : List Nat} {s : Nat} :
      m.transitions[i]? = some t → Follows m t.target numbers s →
        Follows m t.source (i :: numbers) s

/-- A path from the start of a machine, as the numbers of its transitions. -/
structure Machine.Path (m : Machine) where
  numbers : List Nat
  stop : Nat
  follows : m.Follows 0 numbers stop

/-- What the transitions of a path carry, in order. -/
def Machine.Path.carried {m : Machine} (p : m.Path) :
    List (Option (Option Label × Option Label × Option Float)) :=
  p.numbers.map fun i => m.transitions[i]?.map Transition.carried

theorem Machine.Follows.unique {m : Machine} {s : Nat} {numbers : List Nat} {stop stop' : Nat}
    (h : m.Follows s numbers stop) (h' : m.Follows s numbers stop') : stop = stop' := by
  induction h with
  | stay s =>
    cases h'
    rfl
  | go ht _ ih =>
    generalize hs : Transition.source _ = s at h'
    cases h' with
    | go ht' h' =>
      rw [ht, Option.some.injEq] at ht'
      subst ht'
      exact ih h'

theorem Machine.Path.ext_numbers {m : Machine} {p p' : m.Path} (h : p.numbers = p'.numbers) :
    p = p' := by
  obtain ⟨numbers, stop, hfollows⟩ := p
  obtain ⟨numbers', stop', hfollows'⟩ := p'
  obtain rfl : numbers = numbers' := h
  obtain rfl := hfollows.unique hfollows'
  rfl

/-! ## Where the transitions of an expansion come from -/

/-- For each transition of an expansion, in order, the state it leaves, and the transition whose
image it is with the number of that. -/
def Expansion.sources (m : Machine) (origins : List Origin) : List (Nat × Transition × Nat) :=
  origins.zipIdx.flatMap fun origin =>
    (m.transitions.zipIdx.filter fun entry => entry.1.source = origin.1.state).map
      (Prod.mk origin.2)

/-- The number of the transition that a transition of an expansion is the image of. -/
def Expansion.sourceNumber (m : Machine) (origins : List Origin) (j : Nat) : Nat :=
  ((sources m origins)[j]?.map (·.2.2)).getD 0

namespace Machine.Splits

variable {m m' : Machine} {origins : List Origin} {k k' s s' i j : Nat} {t t' : Transition}

theorem map_sources (h : m.Splits origins m') : m'.transitions =
    (sources m origins).map fun entry => image origins entry.1 entry.2.1 := by
  have hleaving : ∀ (s : Nat), m.leaving s =
      (m.transitions.zipIdx.filter fun entry => entry.1.source = s).map Prod.fst := by
    intro s
    unfold Machine.leaving
    conv => lhs; rw [← List.zipIdx_map_fst 0 m.transitions, List.filter_map]
    rfl
  rw [h.transitions, images, List.take_length, sources, List.map_flatMap]
  apply List.flatMap_congr
  rintro ⟨o, k⟩ -
  simp only [hleaving, List.map_map]
  rfl

theorem mem_sources_iff : (k, t, i) ∈ sources m origins ↔
    ∃ o, origins[k]? = some o ∧ m.transitions[i]? = some t ∧ t.source = o.state := by
  simp [sources, List.mem_zipIdx_iff_getElem?]

theorem pairwise_zipIdx {α : Type} (l : List α) : l.zipIdx.Pairwise fun x y => x.2 ≠ y.2 := by
  rw [← List.pairwise_map, List.zipIdx_map_snd]
  exact List.nodup_range'

theorem nodup_sources (m : Machine) (origins : List Origin) : (sources m origins).Nodup := by
  refine List.nodup_flatMap.2 ⟨?_, ?_⟩
  · rintro ⟨o, k⟩ -
    have hnumbered : m.transitions.zipIdx.Nodup :=
      (pairwise_zipIdx m.transitions).imp fun hne heq => hne (congrArg Prod.snd heq)
    exact (hnumbered.filter _).map fun _ _ heq => congrArg Prod.snd heq
  · refine (pairwise_zipIdx origins).imp ?_
    rintro ⟨o, k⟩ ⟨o', k'⟩ hne entry hentry hentry'
    obtain ⟨_, -, rfl⟩ := List.mem_map.1 hentry
    obtain ⟨_, -, heq⟩ := List.mem_map.1 hentry'
    exact hne (congrArg Prod.fst heq).symm

theorem sourceNumber_eq (h : (sources m origins)[j]? = some (k, t, i)) :
    sourceNumber m origins j = i := by
  unfold sourceNumber
  rw [h]
  rfl

theorem standsFor_image (h : m.Splits origins m') (ht : m.transitions[i]? = some t)
    (hk : StandsFor origins k t.source) :
    StandsFor origins (image origins k t).target t.target :=
  h.standsFor_target hk (List.mem_filter.2 ⟨List.mem_of_getElem? ht, decide_eq_true rfl⟩)

theorem exists_getElem?_sources (h : m.Splits origins m') (ht' : m'.transitions[j]? = some t') :
    ∃ t, (sources m origins)[j]? = some (t'.source, t, sourceNumber m origins j) ∧
      t' = image origins t'.source t := by
  rw [h.map_sources, List.getElem?_map, Option.map_eq_some_iff] at ht'
  obtain ⟨⟨k, t, i⟩, hj, rfl⟩ := ht'
  rw [sourceNumber_eq hj]
  exact ⟨t, hj, rfl⟩

/-- A transition that leaves a split of a state carries what one does that leaves the state, and
leads to a split of the state that one leads to. -/
theorem exists_source (h : m.Splits origins m') (ht' : m'.transitions[j]? = some t')
    (hk : StandsFor origins t'.source s) :
    ∃ t, m.transitions[sourceNumber m origins j]? = some t ∧ t.source = s ∧
      t'.carried = t.carried ∧ StandsFor origins t'.target t.target := by
  obtain ⟨t, hj, himage⟩ := h.exists_getElem?_sources ht'
  obtain ⟨o, ho, ht, hsource⟩ := mem_sources_iff.1 (List.mem_of_getElem? hj)
  obtain ⟨o', ho', rfl⟩ := hk
  rw [ho, Option.some.injEq] at ho'
  subst ho'
  have htarget := h.standsFor_image ht ⟨o, ho, hsource.symm⟩
  rw [← himage] at htarget
  exact ⟨t, ht, hsource, by rw [himage]; rfl, htarget⟩

/-- A transition that leaves a state has an image that leaves a given split of the state. -/
theorem exists_image (h : m.Splits origins m') (ht : m.transitions[i]? = some t)
    (hk : StandsFor origins k t.source) :
    ∃ j, m'.transitions[j]? = some (image origins k t) ∧ sourceNumber m origins j = i := by
  obtain ⟨o, ho, hstate⟩ := hk
  obtain ⟨j, hj⟩ := List.getElem?_of_mem (mem_sources_iff.2 ⟨o, ho, ht, hstate.symm⟩)
  refine ⟨j, ?_, sourceNumber_eq hj⟩
  rw [h.map_sources, List.getElem?_map, hj]
  rfl

/-- From one split of a state there is only one image of a transition. -/
theorem eq_of_sourceNumber_eq (h : m.Splits origins m') {j' : Nat} {t'' : Transition}
    (ht' : m'.transitions[j]? = some t') (ht'' : m'.transitions[j']? = some t'')
    (hsource : t'.source = t''.source)
    (hnumber : sourceNumber m origins j = sourceNumber m origins j') : j = j' := by
  obtain ⟨t, hj, -⟩ := h.exists_getElem?_sources ht'
  obtain ⟨u, hj', -⟩ := h.exists_getElem?_sources ht''
  obtain ⟨-, -, ht, -⟩ := mem_sources_iff.1 (List.mem_of_getElem? hj)
  obtain ⟨-, -, hu, -⟩ := mem_sources_iff.1 (List.mem_of_getElem? hj')
  rw [hnumber, hu, Option.some.injEq] at ht
  rw [← hsource, ← hnumber, ht, ← hj] at hj'
  exact (List.getElem?_inj (List.getElem?_eq_some_iff.1 hj).1 (nodup_sources m origins)).1 hj'.symm

/-! ## Paths of an expansion -/

/-- A way through the expansion runs along the transitions whose images it takes. -/
theorem follows (h : m.Splits origins m') {numbers : List Nat} (hk : StandsFor origins k s)
    (hfollows : m'.Follows k numbers k') :
    ∃ s', m.Follows s (numbers.map (sourceNumber m origins)) s' ∧ StandsFor origins k' s' := by
  induction hfollows generalizing s with
  | stay k => exact ⟨s, .stay s, hk⟩
  | go ht' _ ih =>
    obtain ⟨t, ht, rfl, -, htarget⟩ := h.exists_source ht' hk
    obtain ⟨s', hs', hk'⟩ := ih htarget
    exact ⟨s', .go ht hs', hk'⟩

/-- A way through the machine has an image from each split of the state it begins in. -/
theorem exists_follows (h : m.Splits origins m') {numbers : List Nat}
    (hk : StandsFor origins k s) (hfollows : m.Follows s numbers s') :
    ∃ numbers' k', m'.Follows k numbers' k' ∧
      numbers'.map (sourceNumber m origins) = numbers := by
  induction hfollows generalizing k with
  | stay s => exact ⟨[], k, .stay k, rfl⟩
  | go ht _ ih =>
    obtain ⟨j, hj, hnumber⟩ := h.exists_image ht hk
    obtain ⟨numbers', k', hk', hnumbers⟩ := ih (h.standsFor_image ht hk)
    refine ⟨j :: numbers', k', .go hj hk', ?_⟩
    rw [List.map_cons, hnumber, hnumbers]

/-- Two ways from one state of the expansion along images of the same transitions are one. -/
theorem numbers_unique (h : m.Splits origins m') {numbers numbers' : List Nat} {k'' : Nat}
    (hk : StandsFor origins k s) (hfollows : m'.Follows k numbers k')
    (hfollows' : m'.Follows k numbers' k'')
    (hnumbers : numbers.map (sourceNumber m origins) = numbers'.map (sourceNumber m origins)) :
    numbers = numbers' := by
  induction hfollows generalizing s numbers' with
  | stay k =>
    rw [List.map_nil, eq_comm, List.map_eq_nil_iff] at hnumbers
    exact hnumbers.symm
  | @go t' j numbers k' ht' _ ih =>
    generalize hsource : t'.source = k at hfollows'
    cases hfollows' with
    | stay k => cases hnumbers
    | go ht'' hrest =>
      rw [List.map_cons, List.map_cons, List.cons.injEq] at hnumbers
      obtain rfl := h.eq_of_sourceNumber_eq ht' ht'' hsource hnumbers.1
      rw [ht', Option.some.injEq] at ht''
      subst ht''
      obtain ⟨t, ht, rfl, -, htarget⟩ := h.exists_source ht' hk
      rw [ih htarget hrest hnumbers.2]

theorem carried_sourceNumber (h : m.Splits origins m') {numbers : List Nat}
    (hfollows : m'.Follows k numbers k') (hk : StandsFor origins k s) :
    (numbers.map (sourceNumber m origins)).map
        (fun i => m.transitions[i]?.map Transition.carried) =
      numbers.map fun j => m'.transitions[j]?.map Transition.carried := by
  induction hfollows generalizing s with
  | stay k => rfl
  | go ht' _ ih =>
    obtain ⟨t, ht, rfl, hcarried, htarget⟩ := h.exists_source ht' hk
    rw [List.map_cons, List.map_cons, List.map_cons, ih htarget, ht, ht', Option.map_some,
      Option.map_some, hcarried]

/-- The path of the machine that a path of the expansion runs along. -/
theorem exists_path (h : m.Splits origins m') (p' : m'.Path) :
    ∃ p : m.Path, p.numbers = p'.numbers.map (sourceNumber m origins) ∧
      StandsFor origins p'.stop p.stop := by
  obtain ⟨s, hs, hstands⟩ := h.follows h.standsFor_zero p'.follows
  exact ⟨⟨_, s, hs⟩, rfl, hstands⟩

/-- The paths of an expansion are those of the machine, one for one. -/
theorem exists_pathEquiv (h : m.Splits origins m') :
    ∃ e : m.Path ≃ m'.Path, ∀ p, p.numbers = (e p).numbers.map (sourceNumber m origins) ∧
      StandsFor origins (e p).stop p.stop := by
  choose f hnumbers hstands using h.exists_path
  -- Both directions come down to the numbers: they tell a path, on either side.
  have hbijective : Function.Bijective f := by
    refine ⟨?_, ?_⟩
    · intro p' p'' heq
      apply Machine.Path.ext_numbers
      apply h.numbers_unique h.standsFor_zero p'.follows p''.follows
      rw [← hnumbers, ← hnumbers, heq]
    · intro p
      obtain ⟨numbers', k, hfollows, heq⟩ := h.exists_follows h.standsFor_zero p.follows
      refine ⟨⟨numbers', k, hfollows⟩, ?_⟩
      apply Machine.Path.ext_numbers
      rw [hnumbers, heq]
  let e := Equiv.ofBijective f hbijective
  refine ⟨e.symm, ?_⟩
  intro p
  have hp : f (e.symm p) = p := e.apply_symm_apply p
  have hpath := hnumbers (e.symm p)
  have hstop := hstands (e.symm p)
  rw [hp] at hpath hstop
  exact ⟨hpath, hstop⟩

theorem exists_flags (h : m.Splits origins m') (hk : StandsFor origins k s) :
    ∃ flags, m.flags[s]? = some flags ∧ m'.flags[k]? = some flags := by
  rw [h.flags_of_standsFor hk]
  obtain ⟨o, ho, rfl⟩ := hk
  have hlt := h.within o (List.mem_of_getElem? ho)
  exact ⟨_, List.getElem?_eq_getElem hlt, List.getElem?_eq_getElem hlt⟩

end Machine.Splits

namespace Automaton

variable {a : Automaton} {u : Nat} {m : Machine}

/-- The expansion of a unit is one machine, and its paths are those of the unit: there is a path
for each path, as long as it, that carries the same labels and weights and ends in a state with
the same flag byte. -/
theorem paths_becomeExpansion (hsound : a.violation? = none) (hu : a.machines[u]? = some m)
    (hstates : m.flags ≠ []) (target : Automaton) :
    ∃ d m', target.becomeExpansion a (some u) = .done () d ∧ d.machines = [m'] ∧
      ∃ e : m.Path ≃ m'.Path, ∀ p : m.Path, (e p).numbers.length = p.numbers.length ∧
        (e p).carried = p.carried ∧
        ∃ flags, m.flags[p.stop]? = some flags ∧ m'.flags[(e p).stop]? = some flags := by
  have hfits := fits_of_violation?_eq_none hsound m (List.mem_of_getElem? hu)
  obtain ⟨origins, m', hexpand, hsplits⟩ := Machine.exists_expand hfits.closed hstates
  obtain ⟨e, he⟩ := hsplits.exists_pathEquiv
  refine ⟨ofMachines a.schema [m'] a.inputSymbols a.outputSymbols, m', ?_, ?_, e, ?_⟩
  · unfold becomeExpansion
    rw [expand_some hsound hu hexpand]
  · exact machines_ofMachines ..
  · intro p
    obtain ⟨hnumbers, hstands⟩ := he p
    refine ⟨?_, ?_, hsplits.exists_flags hstands⟩
    · rw [hnumbers, List.length_map]
    · unfold Machine.Path.carried
      rw [hnumbers]
      exact (hsplits.carried_sourceNumber (e p).follows hsplits.standsFor_zero).symm

/-- Two transitions that carry the same lead on, one reads on the spot, and one goes back to the
start without reading. -/
def parallel : Machine where
  name := "parallel"
  flags := [0, 5]
  transitions := [{ source := 0, target := 1, input := some (.ofChar 'a') },
    { source := 0, target := 1, input := some (.ofChar 'a') },
    { source := 1, target := 1, input := some (.ofChar 'b') },
    { source := 1, target := 0, input := some .epsilon }]

theorem paths_becomeExpansion_parallel :
    (ofMachines .acceptor [⟨"none", [], []⟩, parallel]).violation? = none ∧ parallel.flags ≠ [] ∧
      ∃ d m', (empty .acceptor).becomeExpansion
          (ofMachines .acceptor [⟨"none", [], []⟩, parallel]) (some 1) = .done () d ∧
        d.machines = [m'] ∧ ∃ e : parallel.Path ≃ m'.Path, ∀ p : parallel.Path,
          (e p).numbers.length = p.numbers.length ∧ (e p).carried = p.carried ∧
          ∃ flags, parallel.flags[p.stop]? = some flags ∧ m'.flags[(e p).stop]? = some flags :=
  ⟨by decide, by decide,
    paths_becomeExpansion (by decide) (u := 1) rfl (by decide) (empty .acceptor)⟩

end Automaton

end WeightedAutomata
