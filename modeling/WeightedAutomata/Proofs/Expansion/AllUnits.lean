-- Expanding all units at once. It comes to the same as expanding them one by one and appending each
-- expansion behind those before it, and every unit has there the expansion that it has alone.
import Mathlib.Data.List.Forall2
import WeightedAutomata.Proofs.Expansion.Growth

namespace WeightedAutomata

/-- Edits that agree item by item agree over the whole lists. -/
theorem Outcome.forEach_congr {α β γ : Type} {edit : Automaton → α → Outcome β}
    {edit' : Automaton → γ → Outcome β} {R : α → γ → Prop}
    (hedit : ∀ x y, R x y → ∀ a, edit a x = edit' a y) {xs : List α} {ys : List γ}
    (h : List.Forall₂ R xs ys) (a : Automaton) : forEach edit a xs = forEach edit' a ys := by
  induction h generalizing a with
  | nil => rfl
  | cons hxy _ ih =>
    unfold forEach
    rw [hedit _ _ hxy]
    exact congrArg _ (funext fun _ => funext ih)

namespace Automaton

open Expansion

/-! ## One expansion behind the other -/

/-- Appends the expansion of one unit of `source`. -/
def appendExpansion (source all : Automaton) (unit : Nat) : Outcome Unit :=
  match source.expand (some unit) with
  | .ok single => all.append single
  | .error (.refused error) => .refused error all
  | .error (.broken fault) => .broken fault

/-- The expansions of the units, each appended behind those before it. In the end the symbol tables
are those of `source`. -/
def appendExpansions (source : Automaton) : Outcome Unit :=
  (Outcome.forEach source.appendExpansion (empty source.schema)
      (List.range source.units.length)).andThen fun _ all =>
    .done () { all with
      inputSymbols := source.inputSymbols
      outputSymbols := source.outputSymbols }

variable {source : Automaton} {u : Nat} {m : Machine}

/-- What is appended is the expansion of the unit, as if it had grown edit by edit. -/
theorem appendExpansion_eq (hsource : source.violation? = none)
    (hu : source.machines[u]? = some m) (all : Automaton) :
    source.appendExpansion all u = source.growBehind all m := by
  have hm := fits_of_violation?_eq_none hsource m (List.mem_of_getElem? hu)
  obtain ⟨m', hexpand, -⟩ := hm.exists_expand
  unfold appendExpansion growBehind
  rw [expand_some hsource hu hexpand, growMachine_eq hm hexpand]

theorem forall₂_range_machines (source : Automaton) :
    List.Forall₂ (fun u m => source.machines[u]? = some m) (List.range source.units.length)
      source.machines := by
  rw [← length_machines, List.forall₂_iff_get]
  refine ⟨List.length_range, ?_⟩
  intro i _ hi
  simp [hi]

theorem appendExpansions_eq (hsource : source.violation? = none) :
    source.appendExpansions = source.growAll := by
  unfold appendExpansions growAll
  rw [Outcome.forEach_congr (fun _ _ hu => appendExpansion_eq hsource hu)
    (forall₂_range_machines source)]

/-! ## All units -/

/-- The expansion of all units has at each place the expansion of the unit there. -/
theorem getElem?_expansions {ms' : List Machine}
    (hexpand : source.machines.map Machine.expand = ms'.map .ok)
    (hu : source.machines[u]? = some m) {m' : Machine} (hm' : m.expand = .ok m') :
    ms'[u]? = some m' := by
  have hplace : (ms'.map (Except.ok (ε := Fault)))[u]? = some (.ok m') := by
    rw [← hexpand, List.getElem?_map, hu, Option.map_some, hm']
  rw [List.getElem?_map, Option.map_eq_some_iff] at hplace
  obtain ⟨found, hfound, heq⟩ := hplace
  rw [hfound, Except.ok.inj heq]

/-- Expanding a unit alone gives sound tables of one unit, with the schema and the symbols of
`source`. -/
theorem exists_single (hsource : source.violation? = none) (hu : source.machines[u]? = some m) :
    ∃ m', m.expand = .ok m' ∧
      (∀ target : Automaton, target.becomeExpansion source (some u) =
        .done () (ofMachines source.schema [m'] source.inputSymbols source.outputSymbols)) ∧
      (ofMachines source.schema [m'] source.inputSymbols source.outputSymbols).machineOf 0 =
        .ok m' := by
  have hm := fits_of_violation?_eq_none hsource m (List.mem_of_getElem? hu)
  obtain ⟨m', hexpand, hfits⟩ := hm.exists_expand
  refine ⟨m', hexpand, ?_, ?_⟩
  · intro target
    unfold becomeExpansion
    rw [expand_some hsource hu hexpand]
  · refine machineOf_eq (violation?_ofMachines (by simpa using hfits) _ _) ?_
    rw [machines_ofMachines]
    rfl

/-- All units of sound tables can be expanded, whatever is replaced. The outcome is what appending
the expansions of the units one by one comes to. It has the schema and the symbols of `source`, and
as many units, each of which reads as the only unit of its expansion alone. If there is one unit,
that expansion is the outcome itself. -/
theorem expandAll_by_unit (hsource : source.violation? = none) :
    ∃ all, (∀ target : Automaton, target.becomeExpansion source none = .done () all) ∧
      source.appendExpansions = .done () all ∧ all.schema = source.schema ∧
      (∀ side, all.symbols side = source.symbols side) ∧
      all.units.length = source.units.length ∧
      (∀ u < source.units.length, ∃ single m',
        (∀ target : Automaton, target.becomeExpansion source (some u) = .done () single) ∧
        single.units.length = 1 ∧ single.machineOf 0 = .ok m' ∧ all.machineOf u = .ok m') ∧
      (source.units.length = 1 →
        ∀ target : Automaton, target.becomeExpansion source (some 0) = .done () all) := by
  obtain ⟨ms', hexpand, hfits, hall⟩ := exists_expand_none hsource
  have hsound : (ofMachines source.schema ms' source.inputSymbols
      source.outputSymbols).violation? = none := violation?_ofMachines hfits _ _
  have hlength : ms'.length = source.units.length := by
    have hlengths := congrArg List.length hexpand
    rw [List.length_map, List.length_map, length_machines] at hlengths
    exact hlengths.symm
  refine ⟨ofMachines source.schema ms' source.inputSymbols source.outputSymbols, ?_, ?_, rfl, ?_,
    ?_, ?_, ?_⟩
  · intro target
    unfold becomeExpansion
    rw [hall]
  · rw [appendExpansions_eq hsource, growAll_eq hsource hexpand hfits]
  · intro side
    cases side with
    | input => rfl
    | output => rfl
  · rw [← length_machines, machines_ofMachines, hlength]
  · intro u hu
    obtain ⟨m, hm⟩ := exists_machine hu
    obtain ⟨m', hm', hsingle, hread⟩ := exists_single hsource hm
    refine ⟨_, m', hsingle, rfl, hread, machineOf_eq hsound ?_⟩
    rw [machines_ofMachines, getElem?_expansions hexpand hm hm']
  · intro hone target
    obtain ⟨m, hm⟩ := exists_machine (hone ▸ Nat.one_pos : 0 < source.units.length)
    obtain ⟨m', hm', hsingle, -⟩ := exists_single hsource hm
    have hfirst := getElem?_expansions hexpand hm hm'
    rw [hsingle target]
    -- A list of one expansion is that of the first unit.
    obtain ⟨found, rfl⟩ := List.length_eq_one_iff.1 (hlength.trans hone)
    rw [Option.some.inj hfirst]

/-- The unit without states has an expansion as the others do. -/
theorem expandAll_by_unit_fourUnits : fourUnits.violation? = none ∧
    ∃ all, (∀ target : Automaton, target.becomeExpansion fourUnits none = .done () all) ∧
      fourUnits.appendExpansions = .done () all ∧ all.units.length = 4 ∧
      ∃ single m',
        (∀ target : Automaton, target.becomeExpansion fourUnits (some 2) = .done () single) ∧
        single.units.length = 1 ∧ single.machineOf 0 = .ok m' ∧ all.machineOf 2 = .ok m' := by
  obtain ⟨all, hall, happended, -, -, hlength, hunits, -⟩ :=
    expandAll_by_unit (by decide : fourUnits.violation? = none)
  exact ⟨by decide, all, hall, happended, hlength, hunits 2 (by decide)⟩

end Automaton

end WeightedAutomata
