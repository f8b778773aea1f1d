-- What a selection of units leads to. The units that it finds are appended one after another,
-- and none of them is refused once the replacement has begun. In the end there is one unit for
-- each number that was asked for and is there, equal to the unit of that number.
import WeightedAutomata.Proofs.Appending

namespace WeightedAutomata

namespace Automaton

variable {a source target : Automaton}

/-! ## One unit after another -/

theorem symbols_empty (schema : Schema) (side : Side) : (empty schema).symbols side = .empty := by
  cases side with
  | input => rfl
  | output => rfl

/-- The tables that appending some units of `source` to `a` leads to, one unit after another. -/
structure Gathered (a source : Automaton) (units : List Nat) (after : Automaton) : Prop where
  machines : after.machines = a.machines ++ units.filterMap (source.machines[·]?)
  schema : after.schema = source.schema
  symbols : ∀ side, after.symbols side =
    if units = [] then a.symbols side else inheritTable (a.symbols side) (source.symbols side)
  sound : after.violation? = none

theorem inheritTable_inheritTable (own other : SymbolTable) :
    inheritTable (inheritTable own other) other = inheritTable own other := by
  unfold inheritTable
  by_cases h : (own.isEmpty && !other.isEmpty) = true
  · rw [if_pos h, ite_self]
  · rw [if_neg h, if_neg h]

theorem take_one_drop {α : Type} (l : List α) (i : Nat) : (l.drop i).take 1 = l[i]?.toList := by
  rw [List.take_one, List.head?_drop]

/-- One unit that there is, appended to tables that have the schema already. -/
theorem exists_appendRange_one (ha : a.violation? = none) (hsource : source.violation? = none)
    (hschema : a.schema = source.schema) (hfresh : a.units = [] → ∀ side, a.symbols side = .empty)
    {u : Nat} (hu : u < source.units.length) :
    ∃ after, a.appendRange source u 1 = .done () after ∧ a.Gathered source [u] after := by
  have hlength : 0 < source.rangeLength u 1 := by
    unfold rangeLength
    omega
  obtain ⟨after, hafter⟩ :=
    (exists_appendRange_iff ha hsource u 1).2 ⟨hlength, Or.inr hschema⟩
  obtain ⟨hmachines, hschema', hsymbols, hsound⟩ := appended_of_appendRange ha hsource hafter
  refine ⟨after, hafter, ?_, hschema', ?_, hsound⟩
  · rw [hmachines, take_rangeLength, take_one_drop, List.filterMap_cons, List.filterMap_nil]
    cases source.machines[u]? with
    | none => rfl
    | some m => rfl
  · intro side
    have hown : (if a.units = [] then .empty else a.symbols side) = a.symbols side := by
      split
      · rename_i hunits
        exact (hfresh hunits side).symm
      · rfl
    rw [hsymbols, hown, if_neg (List.cons_ne_nil _ _), inheritTable_eq]

/-- Units that there are, appended to tables that have the schema already. -/
theorem exists_forEach_appendRange (ha : a.violation? = none) (hsource : source.violation? = none)
    (hschema : a.schema = source.schema) (hfresh : a.units = [] → ∀ side, a.symbols side = .empty)
    {units : List Nat} (hunits : ∀ u ∈ units, u < source.units.length) :
    ∃ after, Outcome.forEach (fun a u => a.appendRange source u 1) a units = .done () after ∧
      a.Gathered source units after := by
  induction units generalizing a with
  | nil => exact ⟨a, rfl, by simp, hschema, fun _ => rfl, ha⟩
  | cons u units ih =>
    obtain ⟨hu, hrest⟩ := List.forall_mem_cons.1 hunits
    obtain ⟨next, hnext, hgathered⟩ := exists_appendRange_one ha hsource hschema hfresh hu
    obtain ⟨m, hm⟩ := exists_machine hu
    have hunits' : next.units ≠ [] := by
      rw [ne_eq, ← machines_eq_nil_iff, hgathered.machines]
      simp [hm]
    obtain ⟨after, hafter, hgathered'⟩ :=
      ih hgathered.sound hgathered.schema (fun h => absurd h hunits') hrest
    refine ⟨after, ?_, ?_, hgathered'.schema, ?_, hgathered'.sound⟩
    · unfold Outcome.forEach
      rw [hnext]
      exact hafter
    · rw [hgathered'.machines, hgathered.machines, List.append_assoc, ← List.filterMap_append]
      rfl
    · intro side
      rw [hgathered'.symbols, hgathered.symbols, if_neg (List.cons_ne_nil _ _),
        if_neg (List.cons_ne_nil _ _), inheritTable_inheritTable, ite_self]

/-! ## Whole selections -/

/-- The units that a selection finds among `count` units, in its order. -/
def Selection.found (selection : Selection) (count : Nat) : List Nat :=
  ((selection.wanted count).filter (namesUnit count)).map Int.toNat

theorem lt_of_mem_found {selection : Selection} {count u : Nat}
    (h : u ∈ selection.found count) : u < count := by
  obtain ⟨unit, hunit, rfl⟩ := List.mem_map.1 h
  have hnames := (List.mem_filter.1 hunit).2
  simp only [namesUnit, Bool.and_eq_true, decide_eq_true_eq] at hnames
  omega

theorem found_single {u count : Nat} (hu : u < count) : (Selection.single u).found count = [u] := by
  have hnames : namesUnit count (Int.ofNat u) = true := by simp [namesUnit, hu]
  simp only [Selection.found, Selection.wanted, List.filter_cons, hnames, if_true, List.filter_nil,
    List.map_cons, List.map_nil]
  rfl

/-- The tables that selecting some units of `source` leads to. A table that gives each unit a
column of its own comes along with the first unit only, the others at the end. -/
structure Selected (source : Automaton) (units : List Nat) (after : Automaton) : Prop where
  machines : after.machines = units.filterMap (source.machines[·]?)
  schema : after.schema = source.schema
  symbols : ∀ side, after.symbols side =
    globalTable (if units = [] then .empty else inheritTable .empty (source.symbols side)) source
      (source.symbols side)
  sound : after.violation? = none

theorem violation?_takeGlobalTables (htarget : target.violation? = none) (source : Automaton) :
    (target.takeGlobalTables source).violation? = none := by
  rw [eq_ofMachines htarget]
  exact violation?_ofMachines (fits_of_violation?_eq_none htarget) _ _

theorem Gathered.takeGlobalTables {units : List Nat} {after : Automaton}
    (h : (empty source.schema).Gathered source units after) :
    source.Selected units (after.takeGlobalTables source) where
  machines := h.machines
  schema := h.schema
  symbols := by
    intro side
    rw [← symbols_empty source.schema side, ← h.symbols]
    cases side with
    | input => rfl
    | output => rfl
  sound := violation?_takeGlobalTables h.sound source

/-- Once the selection is known to be good, the replacement is carried out. -/
theorem exists_copy (hsource : source.violation? = none) (selection : Selection) :
    ∃ after, copyUnits.copy source selection source.units.length =
        .done ⟨(selection.found source.units.length).length,
          (selection.wanted source.units.length).filter (!namesUnit source.units.length ·)⟩ after ∧
      source.Selected (selection.found source.units.length) after := by
  obtain ⟨after, hafter, hgathered⟩ := exists_forEach_appendRange
    (violation?_empty source.schema) hsource rfl (fun _ => symbols_empty source.schema)
    fun u (hu : u ∈ selection.found source.units.length) => lt_of_mem_found hu
  refine ⟨after.takeGlobalTables source, ?_, hgathered.takeGlobalTables⟩
  unfold Selection.found at hafter ⊢
  unfold copyUnits.copy
  dsimp only
  rw [hafter]
  rfl

/-- A selection is the empty list, which changes nothing, or a single unit that does not exist,
which is refused before anything changes, or else it is carried out. -/
theorem copyUnits_cases (hsource : source.violation? = none) (target : Automaton)
    (selection : Selection) :
    (selection = .list [] ∧ target.copyUnits source selection = .done {} target) ∨
    (∃ u, selection = .single u ∧ source.units.length ≤ u ∧
      target.copyUnits source selection = .refused (.badUnit u source.units.length) target) ∨
    (∃ summary after, target.copyUnits source selection = .done summary after ∧
      source.Selected (selection.found source.units.length) after) := by
  obtain ⟨after, hcopy, hselected⟩ := exists_copy hsource selection
  unfold copyUnits
  dsimp only
  split
  · exact Or.inl ⟨rfl, rfl⟩
  · rename_i u
    by_cases hu : u < source.units.length
    · rw [if_pos hu]
      exact Or.inr (Or.inr ⟨_, after, hcopy, hselected⟩)
    · rw [if_neg hu]
      exact Or.inr (Or.inl ⟨u, rfl, Nat.le_of_not_lt hu, rfl⟩)
  · exact Or.inr (Or.inr ⟨_, after, hcopy, hselected⟩)

theorem sound_copyUnits (htarget : target.violation? = none) (hsource : source.violation? = none)
    (selection : Selection) : (target.copyUnits source selection).Sound := by
  rcases copyUnits_cases hsource target selection with
    ⟨-, h⟩ | ⟨u, -, -, h⟩ | ⟨summary, after, h, hafter⟩
  · rw [h]
    exact htarget
  · rw [h]
    exact htarget
  · rw [h]
    exact hafter.sound

/-! ## What a selection takes -/

/-- The unit that an entry of a selection names. -/
def unitAt? (source : Automaton) (entry : Int) : Option Machine :=
  if 0 ≤ entry then source.machines[entry.toNat]? else none

/-- The units found are those that the entries name. -/
theorem filterMap_unitAt? (source : Automaton) (entries : List Int) :
    ((entries.filter (namesUnit source.units.length)).map Int.toNat).filterMap
      (source.machines[·]?) = entries.filterMap source.unitAt? := by
  induction entries with
  | nil => rfl
  | cons entry entries ih =>
    rw [List.filterMap_cons, List.filter_cons, ← ih]
    by_cases hnames : namesUnit source.units.length entry = true
    · have hnonneg : 0 ≤ entry := by
        simp only [namesUnit, Bool.and_eq_true, decide_eq_true_eq] at hnames
        exact hnames.1
      rw [if_pos hnames, List.map_cons, List.filterMap_cons, unitAt?, if_pos hnonneg]
    · -- An entry that names no unit is negative, or lies behind the last one.
      have hnone : source.unitAt? entry = none := by
        unfold unitAt?
        split
        · simp only [namesUnit, Bool.and_eq_true, decide_eq_true_eq] at hnames
          rw [List.getElem?_eq_none_iff, length_machines]
          omega
        · rfl
      rw [if_neg hnames, hnone]

theorem length_filterMap_found (source : Automaton) {units : List Nat}
    (hunits : ∀ u ∈ units, u < source.units.length) :
    (units.filterMap (source.machines[·]?)).length = units.length := by
  induction units with
  | nil => rfl
  | cons u units ih =>
    obtain ⟨hu, hrest⟩ := List.forall_mem_cons.1 hunits
    obtain ⟨m, hm⟩ := exists_machine hu
    rw [List.filterMap_cons, hm, List.length_cons, List.length_cons, ih hrest]

theorem filter_not_namesUnit (count : Nat) (entries : List Int) :
    entries.filter (!namesUnit count ·) =
      entries.filter fun entry => decide (entry < 0 ∨ (count : Int) ≤ entry) := by
  refine List.filter_congr ?_
  intro entry _
  rw [Bool.eq_iff_iff]
  simp [namesUnit]

theorem filterMap_range_getElem? {α : Type} (l : List α) :
    (List.range l.length).filterMap (l[·]?) = l := by
  induction l with
  | nil => rfl
  | cons x l ih =>
    rw [List.length_cons, List.range_succ_eq_map, List.filterMap_cons, List.filterMap_map]
    simpa [Function.comp_def] using ih

theorem filterMap_range_machines (source : Automaton) :
    ((List.range source.units.length).map Int.ofNat).filterMap source.unitAt? =
      source.machines := by
  have hunit : ∀ u : Nat, source.unitAt? (Int.ofNat u) = source.machines[u]? :=
    fun u => if_pos (Int.natCast_nonneg u)
  rw [List.filterMap_map, ← length_machines]
  simp only [Function.comp_def, hunit]
  exact filterMap_range_getElem? source.machines

/-! ## The tables of a selection -/

/-- A table without names answers as the table without columns does. -/
theorem nameIn?_eq_none {table : SymbolTable} (h : table.Nameless) (column row : Nat) :
    table.nameIn? column row = none := by
  unfold SymbolTable.nameIn?
  cases hcolumn : table.columns[column]? with
  | none => rfl
  | some names =>
    rw [h names (List.mem_of_getElem? hcolumn)]
    rfl

theorem nameless_empty : SymbolTable.empty.Nameless := List.forall_mem_nil _

/-- A table that is not by unit comes along whole. One by unit does so with the first unit that is
copied, if there are names in it. -/
theorem Selected.symbols_eq {units : List Nat} {after : Automaton}
    (h : source.Selected units after) (side : Side) : after.symbols side =
      if (source.symbols side).columnCount ≠ source.units.length then source.symbols side
      else if units ≠ [] ∧ ¬ (source.symbols side).Nameless then source.symbols side
      else .empty := by
  rw [h.symbols, globalTable]
  by_cases hcount : (source.symbols side).columnCount = source.units.length
  · rw [if_pos hcount, if_neg (Decidable.not_not.2 hcount)]
    by_cases hunits : units = []
    · rw [if_pos hunits, if_neg (fun h => h.1 hunits)]
    · rw [if_neg hunits, inheritTable_eq]
      simp only [nameless_empty, hunits, true_and, ne_eq, not_false_eq_true]
  · rw [if_neg hcount, if_pos hcount]

/-- Selecting all units keeps every name in its place. -/
theorem Selected.nameIn?_eq {after : Automaton}
    (h : source.Selected (List.range source.units.length) after) (side : Side)
    (column row : Nat) :
    (after.symbols side).nameIn? column row = (source.symbols side).nameIn? column row := by
  rw [h.symbols_eq]
  split
  · rfl
  · split
    · rfl
    · rename_i hcount hcopied
      have hnameless : (source.symbols side).Nameless := by
        by_cases hzero : source.units.length = 0
        · -- A column for each unit is no column where there are no units.
          rw [Decidable.not_not, hzero] at hcount
          rw [SymbolTable.Nameless, List.length_eq_zero_iff.1 hcount]
          exact List.forall_mem_nil _
        · exact Decidable.of_not_not fun hnames => hcopied ⟨by simpa using hzero, hnames⟩
      rw [nameIn?_eq_none nameless_empty, nameIn?_eq_none hnameless]

theorem found_all (count : Nat) : Selection.all.found count = List.range count := by
  have hnames : ∀ unit ∈ (List.range count).map Int.ofNat, namesUnit count unit = true := by
    intro unit hunit
    obtain ⟨u, hu, rfl⟩ := List.mem_map.1 hunit
    simpa [namesUnit] using hu
  simp only [Selection.found, Selection.wanted, List.filter_eq_self.2 hnames, List.map_map]
  exact List.map_id _

/-- A selection that asks for something, and not for a single unit that does not exist, is carried
out, whatever it replaces. -/
theorem copyUnits_eq_copy {selection : Selection} (hlist : selection ≠ .list [])
    (hsingle : ∀ u, selection = .single u → u < source.units.length) (target : Automaton) :
    target.copyUnits source selection = copyUnits.copy source selection source.units.length := by
  unfold copyUnits
  dsimp only
  split
  · exact absurd rfl hlist
  · rename_i u
    exact if_pos (hsingle u rfl)
  · rfl

/-- The units that a selection takes of `source`, and the entries that it skips: those that name no
unit. A list takes units in its order, and as often as it names them. -/
inductive Takes (source : Automaton) : Selection → List Machine → List Int → Prop
  | all : source.Takes .all source.machines []
  | single {u : Nat} {m : Machine} : source.machines[u]? = some m →
      source.Takes (.single u) [m] []
  | list (entries : List Int) : source.Takes (.list entries)
      (entries.filterMap source.unitAt?)
      (entries.filter fun entry => decide (entry < 0 ∨ (source.units.length : Int) ≤ entry))

/-- What a selection of units of `source` tells, and the tables that it leads to. -/
structure CopiesExactly (source : Automaton) (selection : Selection) (summary : CopySummary)
    (after : Automaton) : Prop where
  taken : source.Takes selection after.machines summary.skipped
  copied : summary.copied = after.machines.length
  schema : after.schema = source.schema
  /-- A table with a column for each unit is taken over only with a unit, and if it has names. -/
  symbols : ∀ side, after.symbols side =
    if (source.symbols side).columnCount ≠ source.units.length then source.symbols side
    else if 0 < summary.copied ∧ ¬ (source.symbols side).Nameless then source.symbols side
    else .empty
  sound : after.violation? = none
  /-- All units together have the rows that they had, and every name is found where it was. -/
  all : selection = .all → after.units = source.units ∧ after.states = source.states ∧
    after.transitions = source.transitions ∧ ∀ side column row,
      (after.symbols side).nameIn? column row = (source.symbols side).nameIn? column row

/-- Entries that all name units leave nothing to skip. -/
theorem filter_outside_eq_nil {count : Nat} {units : List Nat} (h : ∀ u ∈ units, u < count) :
    (units.map Int.ofNat).filter
      (fun entry => decide (entry < 0 ∨ (count : Int) ≤ entry)) = [] := by
  rw [List.filter_eq_nil_iff]
  intro entry hentry
  obtain ⟨u, hu, rfl⟩ := List.mem_map.1 hentry
  have hlt := h u hu
  rw [decide_eq_true_eq, Int.ofNat_eq_natCast]
  omega

/-- What the entries of a selection name is taken, and the others are skipped. -/
theorem takes_wanted {selection : Selection}
    (hsingle : ∀ u, selection = .single u → u < source.units.length) :
    source.Takes selection
      ((selection.wanted source.units.length).filterMap source.unitAt?)
      ((selection.wanted source.units.length).filter (!namesUnit source.units.length ·)) := by
  rw [filter_not_namesUnit]
  cases selection with
  | all =>
    unfold Selection.wanted
    rw [filterMap_range_machines, filter_outside_eq_nil fun u hu => List.mem_range.1 hu]
    exact .all
  | single u =>
    have hlt := hsingle u rfl
    obtain ⟨m, hm⟩ := exists_machine hlt
    have hunit : source.unitAt? (Int.ofNat u) = some m := (if_pos (Int.natCast_nonneg u)).trans hm
    change source.Takes _ ([Int.ofNat u].filterMap source.unitAt?) (([u].map Int.ofNat).filter _)
    rw [List.filterMap_cons_some hunit, List.filterMap_nil,
      filter_outside_eq_nil (List.forall_mem_singleton.2 hlt)]
    exact .single hm
  | list entries => exact .list entries

theorem Selected.copiesExactly (hsource : source.violation? = none) {selection : Selection}
    (hsingle : ∀ u, selection = .single u → u < source.units.length) {after : Automaton}
    (h : source.Selected (selection.found source.units.length) after) :
    source.CopiesExactly selection ⟨(selection.found source.units.length).length,
      (selection.wanted source.units.length).filter (!namesUnit source.units.length ·)⟩ after := by
  have hmachines : after.machines =
      (selection.wanted source.units.length).filterMap source.unitAt? :=
    h.machines.trans (source.filterMap_unitAt? _)
  refine ⟨hmachines ▸ takes_wanted hsingle, ?_, h.schema, ?_, h.sound, ?_⟩
  · rw [h.machines]
    exact (source.length_filterMap_found fun u hu => lt_of_mem_found hu).symm
  · intro side
    rw [h.symbols_eq]
    simp only [List.length_pos_iff]
  · rintro rfl
    have hsame : after.machines = source.machines :=
      hmachines.trans source.filterMap_range_machines
    rw [found_all] at h
    rw [eq_ofMachines h.sound, eq_ofMachines hsource, hsame]
    exact ⟨rfl, rfl, rfl, h.nameIn?_eq⟩

/-- A selection of units, unless it is the empty list or a single unit that does not exist, is
carried out. It leads to just the units that it names, and nothing of what it replaces is left. -/
theorem copyUnits_exact (hsource : source.violation? = none) {selection : Selection}
    (hlist : selection ≠ .list [])
    (hsingle : ∀ u, selection = .single u → u < source.units.length) :
    ∃ summary after,
      (∀ target : Automaton, target.copyUnits source selection = .done summary after) ∧
      source.CopiesExactly selection summary after := by
  obtain ⟨after, hcopy, hselected⟩ := exists_copy hsource selection
  refine ⟨_, after, ?_, hselected.copiesExactly hsource hsingle⟩
  intro target
  rw [copyUnits_eq_copy hlist hsingle, hcopy]

/-- Two of the entries name no unit, and one unit is named twice. -/
theorem copyUnits_exact_fourUnits : fourUnits.violation? = none ∧ ∃ after,
    (∀ target : Automaton, target.copyUnits fourUnits (.list [3, -1, 1, 4, 3]) =
      .done ⟨3, [-1, 4]⟩ after) ∧
    fourUnits.CopiesExactly (.list [3, -1, 1, 4, 3]) ⟨3, [-1, 4]⟩ after ∧
    after.machines.map some =
      [fourUnits.machines[3]?, fourUnits.machines[1]?, fourUnits.machines[3]?] ∧
    ∀ side, after.symbols side = fourUnits.symbols side := by
  have hsound : fourUnits.violation? = none := by decide
  obtain ⟨⟨copied, skipped⟩, after, hcopy, hexact⟩ :=
    @copyUnits_exact fourUnits hsound (.list [3, -1, 1, 4, 3]) nofun nofun
  have htaken := hexact.taken
  have hcopied := hexact.copied
  generalize hmachines : after.machines = machines at htaken hcopied
  cases htaken
  cases hcopied
  refine ⟨hsound, after, hcopy, hexact, by rw [hmachines]; rfl, ?_⟩
  intro side
  rw [hexact.symbols]
  cases side with
  | input => rfl
  | output => rfl

end Automaton

end WeightedAutomata
