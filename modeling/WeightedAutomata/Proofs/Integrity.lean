-- What the scan for violations tells. It finds nothing exactly in well-formed tables, which are
-- the packings of machines, each in one way. Otherwise it goes through the places of the tables
-- in a fixed order and tells what is wrong at the first place where anything is.
import Mathlib.Logic.ExistsUnique
import WeightedAutomata.Proofs.Packing

namespace WeightedAutomata

/-! ## Well-formed tables -/

/-- How many states unit rows describe. -/
def stateSum : List UnitRow → Nat
  | [] => 0
  | row :: rows => row.stateCount + stateSum rows

/-- How many transitions unit rows describe. -/
def transitionSum : List UnitRow → Nat
  | [] => 0
  | row :: rows => row.transitionCount + transitionSum rows

theorem stateSum_append (rows rows' : List UnitRow) :
    stateSum (rows ++ rows') = stateSum rows + stateSum rows' := by
  induction rows with
  | nil => simp [stateSum]
  | cons row rows ih => simp [stateSum, ih, Nat.add_assoc]

theorem transitionSum_append (rows rows' : List UnitRow) :
    transitionSum (rows ++ rows') = transitionSum rows + transitionSum rows' := by
  induction rows with
  | nil => simp [transitionSum]
  | cons row rows ih => simp [transitionSum, ih, Nat.add_assoc]

section sums

variable {rows : List UnitRow} {u : Nat} {row : UnitRow}

theorem take_add_one_of_getElem? (h : rows[u]? = some row) :
    rows.take (u + 1) = rows.take u ++ [row] := by
  rw [List.take_add_one, h]
  rfl

theorem stateSum_take_add_one (h : rows[u]? = some row) :
    stateSum (rows.take (u + 1)) = stateSum (rows.take u) + row.stateCount := by
  rw [take_add_one_of_getElem? h, stateSum_append]
  rfl

theorem transitionSum_take_add_one (h : rows[u]? = some row) :
    transitionSum (rows.take (u + 1)) = transitionSum (rows.take u) + row.transitionCount := by
  rw [take_add_one_of_getElem? h, transitionSum_append]
  rfl

end sums

namespace Automaton

/-- Tables that agree with each other. Each unit begins where the units before it end, the units
use up both tables, and the transitions in the rows of a unit run between its states. All
transitions carry just the parts that the schema names. -/
structure WellFormed (a : Automaton) : Prop where
  firstState : ∀ u row, a.units[u]? = some row → row.firstState = stateSum (a.units.take u)
  firstTransition : ∀ u row, a.units[u]? = some row →
    row.firstTransition = transitionSum (a.units.take u)
  stateTotal : stateSum a.units = a.states.length
  transitionTotal : transitionSum a.units = a.transitions.length
  ends : ∀ row ∈ a.units, ∀ i < row.transitionCount, ∀ t,
    a.transitions[row.firstTransition + i]? = some t →
      t.source < row.stateCount ∧ t.target < row.stateCount
  parts : ∀ t ∈ a.transitions, t.input.isSome = a.schema.input ∧
    t.output.isSome = a.schema.output ∧ t.weight.isSome = a.schema.semiring.isSome

theorem admits_iff (schema : Schema) (t : Transition) : schema.admits t = true ↔
    t.input.isSome = schema.input ∧ t.output.isSome = schema.output ∧
      t.weight.isSome = schema.semiring.isSome := by
  simp only [Schema.admits, Bool.and_eq_true, beq_iff_eq, and_assoc]

theorem mem_machineAt_iff (a : Automaton) (row : UnitRow) (t : Transition) :
    t ∈ (a.machineAt row).transitions ↔
      ∃ i < row.transitionCount, a.transitions[row.firstTransition + i]? = some t := by
  simp only [machineAt, List.mem_iff_getElem?, List.getElem?_take, List.getElem?_drop]
  refine ⟨?_, ?_⟩
  · intro h
    rcases h with ⟨i, hi⟩
    split at hi
    · exact ⟨i, ‹_›, hi⟩
    · cases hi
  · intro h
    rcases h with ⟨i, hlt, hi⟩
    exact ⟨i, by rw [if_pos hlt, hi]⟩

/-- A scan that finds nothing has compared each unit with the sums over the units before it. -/
theorem violationFrom?_eq_none_iff_sums (a : Automaton) (unit states transitions : Nat)
    (rows : List UnitRow) : a.violationFrom? unit states transitions rows = none ↔
      (∀ u row, rows[u]? = some row → row.firstState = states + stateSum (rows.take u) ∧
        row.firstTransition = transitions + transitionSum (rows.take u)) ∧
      states + stateSum rows = a.states.length ∧
      transitions + transitionSum rows = a.transitions.length ∧
      (∀ row ∈ rows, ∀ t ∈ (a.machineAt row).transitions,
        t.source < row.stateCount ∧ t.target < row.stateCount) ∧
      ∀ t ∈ a.transitions, a.schema.admits t = true := by
  induction rows generalizing unit states transitions with
  | nil => simp [violationFrom?_nil_eq_none_iff, stateSum, transitionSum]
  | cons row rows ih =>
    rw [violationFrom?_cons_eq_none_iff, ih, List.forall_mem_cons]
    simp only [stateSum, transitionSum, Nat.add_assoc]
    refine ⟨?_, ?_⟩
    · intro h
      rcases h with ⟨hs, ht, hends, hrows, hstates, htransitions, hrest, hadmits⟩
      refine ⟨?_, hstates, htransitions, ⟨hends, hrest⟩, hadmits⟩
      intro u row' hu
      cases u with
      | zero =>
        cases hu
        exact ⟨hs, ht⟩
      | succ u => exact hrows u row' hu
    · intro h
      rcases h with ⟨hrows, hstates, htransitions, ⟨hends, hrest⟩, hadmits⟩
      obtain ⟨hs, ht⟩ := hrows 0 row rfl
      exact ⟨hs, ht, hends, fun u row' hu => hrows (u + 1) row' hu, hstates, htransitions, hrest,
        hadmits⟩

theorem violation?_eq_none_iff_wellFormed (a : Automaton) :
    a.violation? = none ↔ a.WellFormed := by
  unfold violation?
  rw [violationFrom?_eq_none_iff_sums]
  simp only [Nat.zero_add, mem_machineAt_iff, admits_iff]
  refine ⟨?_, ?_⟩
  · intro h
    rcases h with ⟨hrows, hstates, htransitions, hends, hadmits⟩
    exact ⟨fun u row hu => (hrows u row hu).1, fun u row hu => (hrows u row hu).2, hstates,
      htransitions, fun row hrow i hi t ht => hends row hrow t ⟨i, hi, ht⟩, hadmits⟩
  · intro h
    refine ⟨fun u row hu => ⟨h.firstState u row hu, h.firstTransition u row hu⟩, h.stateTotal,
      h.transitionTotal, ?_, h.parts⟩
    rintro row hrow t ⟨i, hi, ht⟩
    exact h.ends row hrow i hi t ht

/-- The machines of sound tables are the only ones whose packing they are. -/
theorem violation?_eq_none_iff_existsUnique (a : Automaton) :
    a.violation? = none ↔ ∃! ms : List Machine, (∀ m ∈ ms, m.Fits a.schema) ∧
      a = ofMachines a.schema ms a.inputSymbols a.outputSymbols := by
  rw [violation?_eq_none_iff]
  refine ⟨?_, ?_⟩
  · intro h
    rcases h with ⟨ms, hfits, ha⟩
    refine ⟨ms, ⟨hfits, ha⟩, ?_⟩
    rintro ms' ⟨-, ha'⟩
    rw [← machines_ofMachines a.schema ms a.inputSymbols a.outputSymbols, ← ha, ha',
      machines_ofMachines]
  · intro h
    exact h.exists

/-! ## The first place where something is wrong -/

/-- A place of the tables that can be wrong. Rows of transitions are counted within the unit,
but for their parts within the table. -/
inductive Site where
  | firstState (unit : Nat)
  | firstTransition (unit : Nat)
  | source (unit row : Nat)
  | target (unit row : Nat)
  | stateTotal
  | transitionTotal
  | parts (row : Nat)
  deriving DecidableEq

/-- The places of a unit in the order of the scan. End points count only where all rows of the
unit are in the table. -/
def sitesOf (a : Automaton) (unit : Nat) (row : UnitRow) : List Site :=
  .firstState unit :: .firstTransition unit ::
    if row.firstTransition + row.transitionCount ≤ a.transitions.length then
      (List.range row.transitionCount).flatMap fun i => [.source unit i, .target unit i]
    else []

/-- The places of the tables as a whole. -/
def tableSites (a : Automaton) : List Site :=
  .stateTotal :: .transitionTotal :: (List.range a.transitions.length).map .parts

/-- All places in the order of the scan. -/
def sites (a : Automaton) : List Site :=
  (a.units.zipIdx.flatMap fun (row, unit) => a.sitesOf unit row) ++ a.tableSites

/-- The violation at an end of a transition of a unit, if that end is no state of the unit. -/
def strayAt? (a : Automaton) (unit i : Nat) (state : Transition → Nat) : Option Violation := do
  let row ← a.units[unit]?
  let t ← a.transitions[row.firstTransition + i]?
  if state t < row.stateCount then none
  else some (.stateOutOfRange unit i (state t) row.stateCount)

/-- The violation at a place, if it is wrong there. -/
def violationAt? (a : Automaton) : Site → Option Violation
  | .firstState unit => do
    let row ← a.units[unit]?
    let expected := stateSum (a.units.take unit)
    if row.firstState = expected then none
    else some (.stateOffset unit expected row.firstState)
  | .firstTransition unit => do
    let row ← a.units[unit]?
    let expected := transitionSum (a.units.take unit)
    if row.firstTransition = expected then none
    else some (.transitionOffset unit expected row.firstTransition)
  | .source unit i => a.strayAt? unit i (·.source)
  | .target unit i => a.strayAt? unit i (·.target)
  | .stateTotal =>
    if stateSum a.units = a.states.length then none
    else some (.stateTotal (stateSum a.units) a.states.length)
  | .transitionTotal =>
    if transitionSum a.units = a.transitions.length then none
    else some (.transitionTotal (transitionSum a.units) a.transitions.length)
  | .parts i => do
    let t ← a.transitions[i]?
    if a.schema.admits t then none else some (.schema i)

theorem findIdx?_eq_findSome?_range {α : Type} (p : α → Bool) (l : List α) :
    l.findIdx? p = (List.range l.length).findSome? fun i =>
      l[i]?.bind fun x => if p x then some i else none := by
  induction l with
  | nil => rfl
  | cons x l ih =>
    rw [List.findIdx?_cons, ih, List.length_cons, List.range_succ_eq_map, List.findSome?_cons,
      List.findSome?_map, List.map_findSome?]
    simp only [List.getElem?_cons_zero, Option.bind_some]
    split
    · rfl
    · congr 1
      funext i
      simp only [Function.comp, List.getElem?_cons_succ]
      cases l[i]? with
      | none => rfl
      | some y =>
        simp only [Option.bind_some]
        split
        · rfl
        · rfl

/-- The end points of a unit, from one of its rows on. -/
theorem strayEnd?_eq_findSome? (a : Automaton) {unit : Nat} {row : UnitRow}
    (hunit : a.units[unit]? = some row) (start : Nat) (ts : List Transition)
    (hts : ∀ i < ts.length, a.transitions[row.firstTransition + (start + i)]? = ts[i]?) :
    strayEnd? unit row.stateCount start ts = ((List.range' start ts.length).flatMap
      fun i => [Site.source unit i, Site.target unit i]).findSome? a.violationAt? := by
  induction ts generalizing start with
  | nil => rfl
  | cons t ts ih =>
    have ht : a.transitions[row.firstTransition + start]? = some t := hts 0 (by simp)
    have hrest : ∀ i < ts.length,
        a.transitions[row.firstTransition + (start + 1 + i)]? = ts[i]? := by
      intro i hi
      have := hts (i + 1) (by simpa using hi)
      rwa [List.getElem?_cons_succ, Nat.add_comm i 1, ← Nat.add_assoc start] at this
    rw [strayEnd?, List.length_cons, List.range'_succ, List.flatMap_cons, List.findSome?_append,
      ← ih (start + 1) hrest]
    simp only [List.findSome?_cons, List.findSome?_nil, violationAt?, strayAt?, hunit, ht,
      Option.bind_eq_bind, Option.bind_some]
    by_cases hs : row.stateCount ≤ t.source
    · simp [hs, Nat.not_lt.2 hs]
    · by_cases htarget : row.stateCount ≤ t.target
      · simp [hs, Nat.lt_of_not_le hs, htarget, Nat.not_lt.2 htarget]
      · simp [hs, Nat.lt_of_not_le hs, htarget, Nat.lt_of_not_le htarget]

theorem strayEnd?_rows? (a : Automaton) {unit : Nat} {row : UnitRow}
    (hunit : a.units[unit]? = some row) : strayEnd? unit row.stateCount 0
      ((rows? a.transitions row.firstTransition row.transitionCount).getD []) =
        (if row.firstTransition + row.transitionCount ≤ a.transitions.length then
          (List.range row.transitionCount).flatMap fun i => [Site.source unit i, .target unit i]
        else []).findSome? a.violationAt? := by
  unfold rows?
  split
  · rename_i hle
    rw [Option.getD_some, strayEnd?_eq_findSome? a hunit]
    · rw [List.length_take, List.length_drop, Nat.min_eq_left (by omega), List.range_eq_range']
    · intro i hi
      rw [List.length_take] at hi
      rw [List.getElem?_take, if_pos (by omega), List.getElem?_drop, Nat.zero_add]
  · rfl

/-- Behind all units the scan looks at the tables as a whole. -/
theorem violationFrom?_nil_eq_findSome? (a : Automaton) (unit : Nat) :
    a.violationFrom? unit (stateSum a.units) (transitionSum a.units) [] =
      a.tableSites.findSome? a.violationAt? := by
  rw [violationFrom?, findIdx?_eq_findSome?_range, List.map_findSome?]
  simp only [tableSites, List.findSome?_cons, violationAt?, List.findSome?_map]
  by_cases hs : stateSum a.units = a.states.length
  · by_cases ht : transitionSum a.units = a.transitions.length
    · simp only [hs, ht, ne_eq, not_true_eq_false, if_false, if_true]
      congr 1
      funext i
      simp only [Function.comp, violationAt?]
      cases a.transitions[i]? with
      | none => rfl
      | some t => cases hadmits : a.schema.admits t <;> simp [hadmits]
    · simp [hs, ht]
  · simp [hs]

/-- From one unit on, the scan finds what is wrong at the first place that is. -/
theorem violationFrom?_eq_findSome? (a : Automaton) (unit : Nat) (rows : List UnitRow)
    (hrows : a.units.drop unit = rows) :
    a.violationFrom? unit (stateSum (a.units.take unit)) (transitionSum (a.units.take unit)) rows =
      (((rows.zipIdx unit).flatMap fun (row, u) => a.sitesOf u row) ++
        a.tableSites).findSome? a.violationAt? := by
  induction rows generalizing unit with
  | nil =>
    rw [List.take_of_length_le (List.drop_eq_nil_iff.1 hrows)]
    exact a.violationFrom?_nil_eq_findSome? unit
  | cons row rows ih =>
    obtain ⟨hunit, hdrop⟩ : a.units[unit]? = some row ∧ a.units.drop (unit + 1) = rows := by
      have hhead := congrArg (·[0]?) hrows
      have htail := congrArg (List.drop 1) hrows
      simp only [List.getElem?_drop, Nat.add_zero, List.getElem?_cons_zero] at hhead
      rw [List.drop_drop] at htail
      exact ⟨hhead, htail⟩
    rw [violationFrom?, List.zipIdx_cons, List.flatMap_cons, List.append_assoc,
      List.findSome?_append, ← ih (unit + 1) hdrop, stateSum_take_add_one hunit,
      transitionSum_take_add_one hunit]
    dsimp only
    rw [sitesOf, List.findSome?_cons, List.findSome?_cons, ← a.strayEnd?_rows? hunit]
    simp only [violationAt?, hunit, Option.bind_eq_bind, Option.bind_some]
    by_cases hs : row.firstState = stateSum (a.units.take unit)
    · by_cases ht : row.firstTransition = transitionSum (a.units.take unit)
      · simp only [hs, ht, ne_eq, not_true_eq_false, if_false, if_true]
        split
        · rename_i violation hviolation
          simp [hviolation]
        · rename_i hnone
          simp [hnone]
      · simp [hs, ht]
    · simp [hs]

theorem violation?_eq_findSome? (a : Automaton) :
    a.violation? = a.sites.findSome? a.violationAt? :=
  a.violationFrom?_eq_findSome? 0 a.units rfl

/-- The scan decides whether the tables are well formed, which is whether they are the packing
of some machines, and then of no others. What it tells of other tables is wrong there, and at no
place before it anything is. -/
theorem violation?_exact (a : Automaton) :
    (a.violation? = none ↔ a.WellFormed) ∧
    (a.violation? = none ↔ ∃! ms : List Machine, (∀ m ∈ ms, m.Fits a.schema) ∧
      a = ofMachines a.schema ms a.inputSymbols a.outputSymbols) ∧
    ∀ violation, a.violation? = some violation ↔ ∃ before site after,
      a.sites = before ++ site :: after ∧ a.violationAt? site = some violation ∧
        ∀ earlier ∈ before, a.violationAt? earlier = none := by
  refine ⟨a.violation?_eq_none_iff_wellFormed, a.violation?_eq_none_iff_existsUnique, ?_⟩
  intro violation
  rw [violation?_eq_findSome?]
  exact List.findSome?_eq_some_iff

/-- A transition that strays from a unit whose rows run past the table is not looked at, and a
total tells that something is wrong. -/
example : { empty .acceptor with
    units := [⟨"past", 0, 1, 0, 2⟩]
    states := [0]
    transitions := [{ source := 7, target := 0, input := some .anyChar }] }.violation? =
      some (.transitionTotal 2 1) := by
  decide

end Automaton

end WeightedAutomata
