-- The names that labels are shown by once a unit is taken out of an automaton. A table that gives
-- each unit a column of its own goes along with all its columns. It then has more columns than
-- there are units, and the listing reads the first one.
import WeightedAutomata.Proofs.Expansion.Units
import WeightedAutomata.Proofs.Reading
import WeightedAutomata.Proofs.Selection

namespace WeightedAutomata

namespace Automaton

/-! ## Labels in the listing -/

/-- What the listing shows for a label of a unit. -/
def shownLabel (a : Automaton) (side : Side) (unit : Nat) (l : Label) : String :=
  Report.labelText (a.symbols side) (Report.columnFor a (a.symbols side) unit) l

/-- A line of the listing has its labels as they are shown. -/
theorem transitionLine_eq (a : Automaton) (unit number : Nat) (t : Transition) :
    Report.transitionLine a unit number t = (do
      let source ← Report.stateText a unit t.source
      let target ← Report.stateText a unit t.target
      let shape ← Report.shape a unit t
      return "  " ++ Text.alignRight 7 (toString number) ++ ": " ++ Text.alignRight 8 source ++
        " -> " ++ Text.alignLeft 8 target ++ " " ++ Text.alignLeft 6 shape ++
        (t.input.map fun l => " " ++ a.shownLabel .input unit l).getD "" ++
        (t.output.map fun l => ":" ++ a.shownLabel .output unit l).getD "" ++
        (t.weight.map fun w => " / " ++ Decimal.Style.full.write w).getD "") := rfl

theorem columnFor_zero (a : Automaton) (symbols : SymbolTable) :
    Report.columnFor a symbols 0 = 0 := ite_self 0

/-- The first unit is read with the first column, whichever tables there are. -/
theorem shownLabel_zero (a : Automaton) (side : Side) (l : Label) :
    a.shownLabel side 0 l = Report.labelText (a.symbols side) 0 l := by
  unfold shownLabel
  rw [columnFor_zero]

/-- A table of one column serves all units alike. -/
theorem shownLabel_eq_zero {a : Automaton} {side : Side} {u : Nat}
    (hglobal : (a.symbols side).columnCount = 1) (hu : u < a.units.length) (l : Label) :
    a.shownLabel side u l = a.shownLabel side 0 l := by
  unfold shownLabel Report.columnFor
  split
  · rw [show u = 0 by omega]
  · rfl

theorem labelText_of_isEmpty {symbols symbols' : SymbolTable} (h : symbols.isEmpty = true)
    (h' : symbols'.isEmpty = true) (column : Nat) (l : Label) :
    Report.labelText symbols column l = Report.labelText symbols' column l := by
  cases l with
  | symbol code => simp only [Report.labelText, h, h', if_true]
  | _ => rfl

/-! ## Units taken out -/

variable {source target : Automaton} {u : Nat} {m : Machine}

/-- Whatever becomes of a table when units are selected, it shows the same texts in a column. -/
theorem labelText_globalTable (source : Automaton) (symbols : SymbolTable) (column : Nat)
    (l : Label) :
    Report.labelText (globalTable (inheritTable .empty symbols) source symbols) column l =
      Report.labelText symbols column l := by
  unfold globalTable
  split
  · cases hempty : symbols.isEmpty with
    | false =>
      have hinherited : inheritTable .empty symbols = symbols := by
        unfold inheritTable
        rw [hempty]
        rfl
      rw [hinherited]
    | true =>
      have hlost : inheritTable .empty symbols = .empty := by
        unfold inheritTable
        rw [hempty]
        rfl
      rw [hlost]
      exact labelText_of_isEmpty rfl hempty column l
  · rfl

theorem exists_copyUnits_single (hsource : source.violation? = none)
    (hu : source.machines[u]? = some m) (target : Automaton) :
    ∃ summary after, target.copyUnits source (.single u) = .done summary after ∧
      after.machines = [m] ∧
      ∀ side l, after.shownLabel side 0 l = source.shownLabel side 0 l := by
  have hlt : u < source.units.length := by
    rw [← length_machines]
    exact (List.getElem?_eq_some_iff.1 hu).1
  rcases copyUnits_cases hsource target (.single u) with ⟨h, -⟩ | ⟨v, h, hle, -⟩ | hdone
  · cases h
  · cases h
    omega
  · obtain ⟨summary, after, hafter, hmachines, -, hsymbols, -⟩ := hdone
    rw [found_single hlt] at hmachines hsymbols
    refine ⟨summary, after, hafter, ?_, ?_⟩
    · rw [hmachines]
      simp [hu]
    · intro side l
      rw [shownLabel_zero, shownLabel_zero, hsymbols, if_neg (List.cons_ne_nil _ _),
        labelText_globalTable]

theorem exists_becomeExpansion_some (hsource : source.violation? = none)
    (hu : source.machines[u]? = some m) (target : Automaton) :
    ∃ after m', target.becomeExpansion source (some u) = .done () after ∧
      m.expand = .ok m' ∧ after.machines = [m'] ∧
      ∀ side l, after.shownLabel side 0 l = source.shownLabel side 0 l := by
  have hm := fits_of_violation?_eq_none hsource m (List.mem_of_getElem? hu)
  obtain ⟨m', hexpand, -⟩ := hm.exists_expand
  unfold becomeExpansion
  rw [expand_some hsource hu hexpand]
  refine ⟨_, m', rfl, hexpand, machines_ofMachines .., ?_⟩
  intro side l
  rw [shownLabel_zero, shownLabel_zero]
  cases side with
  | input => rfl
  | output => rfl

/-- A unit taken out of sound tables, as it is or expanded, has its labels shown by the names that
they have in it where one column serves all units. Where each unit has a column of its own, they are
shown by the names that they have in the first unit. -/
theorem shown_labels_of_unit (hsource : source.violation? = none)
    (hu : source.machines[u]? = some m) (target : Automaton) :
    ∃ summary selected m' expanded,
      target.copyUnits source (.single u) = .done summary selected ∧ selected.machines = [m] ∧
      target.becomeExpansion source (some u) = .done () expanded ∧ m.expand = .ok m' ∧
      expanded.machines = [m'] ∧
      ∀ side l,
        let v := if (source.symbols side).columnCount = 1 then u else 0
        selected.shownLabel side 0 l = source.shownLabel side v l ∧
          expanded.shownLabel side 0 l = source.shownLabel side v l := by
  obtain ⟨summary, selected, hselected, hmachines, hshown⟩ :=
    exists_copyUnits_single hsource hu target
  obtain ⟨expanded, m', hexpanded, hexpand, hmachines', hshown'⟩ :=
    exists_becomeExpansion_some hsource hu target
  refine ⟨summary, selected, m', expanded, hselected, hmachines, hexpanded, hexpand, hmachines', ?_⟩
  intro side l
  have hlt : u < source.units.length := by
    rw [← length_machines]
    exact (List.getElem?_eq_some_iff.1 hu).1
  have hsame : source.shownLabel side (if (source.symbols side).columnCount = 1 then u else 0) l =
      source.shownLabel side 0 l := by
    split
    · rename_i hglobal
      exact shownLabel_eq_zero hglobal hlt l
    · rfl
  dsimp only
  rw [hsame]
  exact ⟨hshown side l, hshown' side l⟩

/-- Two units that read symbol 0, each with its own name for it. -/
def twoNames : Automaton :=
  ofMachines .acceptor
    [⟨"one", [0, 1], [{ source := 0, target := 1, input := some (.symbol 0) }]⟩,
      ⟨"two", [0, 1], [{ source := 0, target := 1, input := some (.symbol 0) }]⟩]
    ⟨[["first"], ["second"]]⟩ ⟨[["shared"]]⟩

theorem shown_labels_of_unit_twoNames :
    twoNames.violation? = none ∧ ∃ m, twoNames.machines[1]? = some m ∧
      ∃ summary selected m' expanded,
        (empty .acceptor).copyUnits twoNames (.single 1) = .done summary selected ∧
        selected.machines = [m] ∧
        (empty .acceptor).becomeExpansion twoNames (some 1) = .done () expanded ∧
        m.expand = .ok m' ∧ expanded.machines = [m'] ∧
        ∀ side l,
          let v := if (twoNames.symbols side).columnCount = 1 then 1 else 0
          selected.shownLabel side 0 l = twoNames.shownLabel side v l ∧
            expanded.shownLabel side 0 l = twoNames.shownLabel side v l :=
  ⟨by decide, _, rfl, shown_labels_of_unit (by decide) rfl (empty .acceptor)⟩

/-- The second of the two units reads a symbol that the listing shows as "second" there. Taken out,
as it is or expanded, it shows "first". -/
theorem shown_labels_change_twoNames :
    twoNames.violation? = none ∧
    (twoNames.symbols .input).columnCount = twoNames.units.length ∧
    ¬ (twoNames.symbols .input).Nameless ∧ (twoNames.symbols .output).columnCount = 1 ∧
    ∃ m, twoNames.machines[1]? = some m ∧ (∃ t ∈ m.transitions, t.input = some (.symbol 0)) ∧
      (∃ summary selected,
        (empty .acceptor).copyUnits twoNames (.single 1) = .done summary selected ∧
        selected.machines = [m] ∧
        selected.shownLabel .input 0 (.symbol 0) ≠ twoNames.shownLabel .input 1 (.symbol 0)) ∧
      ∃ m' expanded, (empty .acceptor).becomeExpansion twoNames (some 1) = .done () expanded ∧
        m.expand = .ok m' ∧ expanded.machines = [m'] ∧
        expanded.shownLabel .input 0 (.symbol 0) ≠ twoNames.shownLabel .input 1 (.symbol 0) := by
  have hsound : twoNames.violation? = none := by decide
  have hsecond : twoNames.machines[1]? = some
      ⟨"two", [0, 1], [{ source := 0, target := 1, input := some (.symbol 0) }]⟩ := rfl
  have hnames : twoNames.shownLabel .input 0 (.symbol 0) ≠
      twoNames.shownLabel .input 1 (.symbol 0) := by decide
  obtain ⟨summary, selected, hselected, hmachines, hshown⟩ :=
    exists_copyUnits_single hsound hsecond (empty .acceptor)
  obtain ⟨expanded, m', hexpanded, hexpand, hmachines', hshown'⟩ :=
    exists_becomeExpansion_some hsound hsecond (empty .acceptor)
  refine ⟨hsound, rfl, by decide, rfl, _, hsecond, ⟨_, List.mem_singleton_self _, rfl⟩, ?_, ?_⟩
  · exact ⟨summary, selected, hselected, hmachines, by rwa [hshown]⟩
  · exact ⟨m', expanded, hexpanded, hexpand, hmachines', by rwa [hshown']⟩

end Automaton

end WeightedAutomata
