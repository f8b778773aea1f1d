-- The expansion of units of a sound automaton. Each unit has an expansion, which fits the schema
-- as the unit does, so that the expansion of sound tables is made and is sound.
import WeightedAutomata.Proofs.Expansion.Scan

namespace WeightedAutomata

/-! ## Machines that fit -/

theorem Machine.Closed.transitions_eq_nil {m : Machine} (hm : m.Closed) (h : m.flags = []) :
    m.transitions = [] := by
  rw [List.eq_nil_iff_forall_not_mem]
  intro t ht
  have hlt := (hm t ht).1
  rw [h] at hlt
  exact absurd hlt (Nat.not_lt_zero _)

/-- Without states there is nothing to split. -/
theorem Machine.expand_of_stateless {m : Machine} (hm : m.Closed) (h : m.flags = []) :
    m.expand = .ok m := by
  have htransitions := hm.transitions_eq_nil h
  unfold expand
  rw [if_pos (by rw [h]; rfl), ← htransitions]

theorem Machine.Fits.exists_expand {schema : Schema} {m : Machine} (hm : m.Fits schema) :
    ∃ m', m.expand = .ok m' ∧ m'.Fits schema := by
  by_cases h : m.flags = []
  · exact ⟨m, m.expand_of_stateless hm.closed h, hm⟩
  · obtain ⟨origins, m', hexpand, hsplits⟩ := Machine.exists_expand hm.closed h
    exact ⟨m', hexpand, hsplits.fits hm⟩

theorem Machine.exists_of_mem_expand {ms ms' : List Machine}
    (h : ms.map Machine.expand = ms'.map .ok) {m' : Machine} (hm' : m' ∈ ms') :
    ∃ m ∈ ms, m.expand = .ok m' := by
  have hmem : Except.ok m' ∈ ms.map Machine.expand := by
    rw [h]
    exact List.mem_map_of_mem hm'
  exact List.mem_map.1 hmem

namespace Automaton

/-! ## Units of a sound automaton -/

variable {a : Automaton} {u : Nat} {m : Machine}

theorem expand_some (hsound : a.violation? = none) (hu : a.machines[u]? = some m) {m' : Machine}
    (hexpand : m.expand = .ok m') :
    a.expand (some u) = .ok (ofMachines a.schema [m'] a.inputSymbols a.outputSymbols) := by
  have hpack : [m].mapM Machine.expand = .ok [m'] := mapM_eq_ok_iff.2 (by simp [hexpand])
  unfold expand
  rw [(check_eq_ok_iff a).2 hsound]
  simp only [hu, expand.pack, hpack]

theorem expand_badUnit (hsound : a.violation? = none) (hu : a.machines[u]? = none) :
    a.expand (some u) = .error (.refused (.badUnit u a.units.length)) := by
  unfold expand
  rw [(check_eq_ok_iff a).2 hsound]
  simp only [hu]

theorem expand_none (hsound : a.violation? = none) {ms' : List Machine}
    (hexpand : a.machines.mapM Machine.expand = .ok ms') :
    a.expand none = .ok (ofMachines a.schema ms' a.inputSymbols a.outputSymbols) := by
  unfold expand
  rw [(check_eq_ok_iff a).2 hsound]
  simp only [expand.pack, hexpand]

/-- The expansion of all units is made, and has the expansion of each unit in its place. -/
theorem exists_expand_none (hsound : a.violation? = none) :
    ∃ ms', a.machines.map Machine.expand = ms'.map .ok ∧ (∀ m' ∈ ms', m'.Fits a.schema) ∧
      a.expand none = .ok (ofMachines a.schema ms' a.inputSymbols a.outputSymbols) := by
  have hfits := fits_of_violation?_eq_none hsound
  obtain ⟨ms', hms'⟩ := exists_mapM_eq_ok fun m hm => (hfits m hm).exists_expand.imp fun _ h => h.1
  have hmap := mapM_eq_ok_iff.1 hms'
  refine ⟨ms', hmap, ?_, expand_none hsound hms'⟩
  intro m' hm'
  obtain ⟨m, hm, hexpand⟩ := Machine.exists_of_mem_expand hmap hm'
  obtain ⟨m'', hexpand', hfits'⟩ := (hfits m hm).exists_expand
  rw [hexpand, Except.ok.injEq] at hexpand'
  exact hexpand' ▸ hfits'

/-- Of a sound automaton an expansion is refused only where the unit asked for does not exist.
Otherwise it is made, and is sound. -/
theorem exists_expand (hsound : a.violation? = none) (unit : Option Nat) :
    (∃ d, a.expand unit = .ok d ∧ d.violation? = none) ∨
      ∃ u, unit = some u ∧ a.units.length ≤ u ∧
        a.expand unit = .error (.refused (.badUnit u a.units.length)) := by
  cases unit with
  | none =>
    obtain ⟨ms', -, hfits, hexpand⟩ := exists_expand_none hsound
    exact Or.inl ⟨_, hexpand, violation?_ofMachines hfits _ _⟩
  | some u =>
    cases hu : a.machines[u]? with
    | none =>
      refine Or.inr ⟨u, rfl, ?_, expand_badUnit hsound hu⟩
      rwa [machines_eq_none_iff, List.getElem?_eq_none_iff] at hu
    | some m =>
      have hm := fits_of_violation?_eq_none hsound m (List.mem_of_getElem? hu)
      obtain ⟨m', hexpand, hfits⟩ := hm.exists_expand
      refine Or.inl ⟨_, expand_some hsound hu hexpand, violation?_ofMachines ?_ _ _⟩
      simpa using hfits

end Automaton

end WeightedAutomata
