-- Whole units from one packing to another. Appending a range of units appends their machines, and
-- cannot break sound tables.
import WeightedAutomata.Automaton.Compose
import WeightedAutomata.Proofs.Edits

namespace WeightedAutomata

namespace Automaton

/-! ## Ranges of rows -/

theorem take_rowsOf (states transitions count : Nat) (ms : List Machine) :
    (rowsOf states transitions ms).take count = rowsOf states transitions (ms.take count) := by
  induction ms generalizing states transitions count with
  | nil => simp [rowsOf]
  | cons m ms ih =>
    cases count with
    | zero => rfl
    | succ count => rw [rowsOf, List.take_succ_cons, ih, List.take_succ_cons, rowsOf]

theorem drop_rowsOf (states transitions first : Nat) (ms : List Machine) :
    (rowsOf states transitions ms).drop first =
      rowsOf (states + ((ms.take first).flatMap (·.flags)).length)
        (transitions + ((ms.take first).flatMap (·.transitions)).length) (ms.drop first) := by
  induction ms generalizing states transitions first with
  | nil => simp [rowsOf]
  | cons m ms ih =>
    cases first with
    | zero => rfl
    | succ first =>
      rw [rowsOf, List.drop_succ_cons, ih, List.drop_succ_cons, List.take_succ_cons,
        List.flatMap_cons, List.flatMap_cons, List.length_append, List.length_append,
        Nat.add_assoc, Nat.add_assoc]

theorem le_of_mem_rowsOf {states transitions : Nat} {ms : List Machine} {row : UnitRow}
    (h : row ∈ rowsOf states transitions ms) :
    states ≤ row.firstState ∧ transitions ≤ row.firstTransition := by
  induction ms generalizing states transitions with
  | nil => cases h
  | cons m ms ih =>
    rcases List.mem_cons.1 h with rfl | h
    · exact ⟨Nat.le_refl _, Nat.le_refl _⟩
    · have := ih h
      omega

/-- The first row begins where the machines begin. -/
theorem exists_head?_rowsOf (states transitions : Nat) {ms : List Machine} (h : ms ≠ []) :
    ∃ first, (rowsOf states transitions ms).head? = some first ∧
      first.firstState = states ∧ first.firstTransition = transitions := by
  obtain ⟨m, rest, rfl⟩ := List.exists_cons_of_ne_nil h
  exact ⟨_, rfl, rfl, rfl⟩

/-- The last row ends where the machines end. -/
theorem exists_getLast?_rowsOf (states transitions : Nat) {ms : List Machine} (h : ms ≠ []) :
    ∃ last, (rowsOf states transitions ms).getLast? = some last ∧
      last.firstState + last.stateCount = states + (ms.flatMap (·.flags)).length ∧
      last.firstTransition + last.transitionCount =
        transitions + (ms.flatMap (·.transitions)).length := by
  obtain ⟨before, m, rfl⟩ : ∃ before m, ms = before ++ [m] :=
    ⟨ms.dropLast, ms.getLast h, (List.dropLast_concat_getLast h).symm⟩
  rw [rowsOf_append]
  refine ⟨_, List.getLast?_concat .., ?_, ?_⟩
  · simp [Nat.add_assoc]
  · simp [Nat.add_assoc]

theorem rowsBetween?_append {α : Type} (xs ys zs : List α) :
    rowsBetween? (xs ++ (ys ++ zs)) xs.length (xs.length + ys.length) = some ys := by
  unfold rowsBetween?
  rw [if_pos (Nat.le_add_right _ _), Nat.add_sub_cancel_left, rows?_append]

/-- Rows moved to where other machines end are the rows of machines packed behind those. -/
theorem map_moved_rowsOf (s t states transitions : Nat) (ms : List Machine) :
    (rowsOf s t ms).map (fun row => { row with
        firstState := row.firstState - s + states
        firstTransition := row.firstTransition - t + transitions }) =
      rowsOf states transitions ms := by
  -- Both sides are the rows from 0 on, moved along.
  rw [← Nat.zero_add s, ← Nat.zero_add t, ← map_rowsOf (fun _ => rfl), List.map_map]
  conv => rhs; rw [← Nat.zero_add states, ← Nat.zero_add transitions]
  rw [← map_rowsOf (fun _ => rfl)]
  congr 1
  funext row
  simp

/-! ## Appending -/

section append

variable {schema schema' : Schema} {ms before chosen after : List Machine}
  {inputs outputs inputs' outputs' : SymbolTable}

theorem extend_ofMachines (hchosen : chosen ≠ []) :
    (ofMachines schema ms inputs outputs).extend
        (ofMachines schema' (before ++ (chosen ++ after)) inputs' outputs')
        (rowsOf (before.flatMap (·.flags)).length (before.flatMap (·.transitions)).length chosen) =
      .ok (ofMachines schema (ms ++ chosen) (inheritTable inputs inputs')
        (inheritTable outputs outputs')) := by
  obtain ⟨last, hlast, hstates, htransitions⟩ := exists_getLast?_rowsOf
    (before.flatMap (·.flags)).length (before.flatMap (·.transitions)).length hchosen
  obtain ⟨first, hfirst, hfirstState, hfirstTransition⟩ := exists_head?_rowsOf
    (before.flatMap (·.flags)).length (before.flatMap (·.transitions)).length hchosen
  unfold extend
  rw [hfirst, hlast]
  simp only [hfirstState, hfirstTransition, hstates, htransitions, ofMachines, List.flatMap_append,
    rowsBetween?_append, map_moved_rowsOf, rowsOf_append, Nat.zero_add]
  rw [if_pos]
  simpa using fun row hrow => le_of_mem_rowsOf hrow

end append

variable {target source : Automaton} {first count : Nat}

/-- The rows of a range of sound units are those of the machines of the range. -/
theorem take_drop_units (hsource : source.violation? = none) :
    (source.units.drop first).take count =
      rowsOf ((source.machines.take first).flatMap (·.flags)).length
        ((source.machines.take first).flatMap (·.transitions)).length
        ((source.machines.drop first).take count) := by
  have hunits : source.units = rowsOf 0 0 source.machines :=
    congrArg Automaton.units (eq_ofMachines hsource)
  rw [hunits, drop_rowsOf, take_rowsOf, Nat.zero_add, Nat.zero_add]

/-- Extending sound tables by a range of sound units appends the machines of the range. -/
theorem extend_range (htarget : target.violation? = none) (hsource : source.violation? = none)
    (hchosen : (source.machines.drop first).take count ≠ []) :
    target.extend source ((source.units.drop first).take count) =
      .ok (ofMachines target.schema (target.machines ++ (source.machines.drop first).take count)
        (inheritTable target.inputSymbols source.inputSymbols)
        (inheritTable target.outputSymbols source.outputSymbols)) := by
  have hsplit : source = ofMachines source.schema (source.machines.take first ++
      ((source.machines.drop first).take count ++ (source.machines.drop first).drop count))
      source.inputSymbols source.outputSymbols := by
    rw [List.take_append_drop, List.take_append_drop]
    exact eq_ofMachines hsource
  rw [take_drop_units hsource]
  -- The parts of the source are named, or rewriting the source would reach into them.
  generalize source.machines.take first = before at *
  generalize (source.machines.drop first).take count = chosen at *
  generalize (source.machines.drop first).drop count = after at *
  rw [hsplit]
  conv => lhs; rw [eq_ofMachines htarget]
  exact extend_ofMachines hchosen

/-- What the units of a range are appended to. Without units of its own an automaton takes over
the schema, and its symbols do not count. -/
def appendBase (target source : Automaton) : Automaton :=
  if target.isEmpty then empty source.schema else target

/-- The tables that appending a range leads to. -/
def withRange (target source : Automaton) (first count : Nat) : Automaton :=
  ofMachines source.schema
    ((target.appendBase source).machines ++ (source.machines.drop first).take count)
    (inheritTable (target.appendBase source).inputSymbols source.inputSymbols)
    (inheritTable (target.appendBase source).outputSymbols source.outputSymbols)

/-- Appending is refused where the range is empty, and where the schemas differ. -/
theorem appendRange_eq (htarget : target.violation? = none) (hsource : source.violation? = none)
    (first count : Nat) : target.appendRange source first count =
      if (source.machines.drop first).take count = [] then
        .refused (.badUnit first source.units.length) target
      else if target.isEmpty = true ∨ target.schema = source.schema then
        .done () (target.withRange source first count)
      else .refused (.schemaMismatch (.units source.schema target.schema)) target := by
  have hselected : ((source.units.drop first).take count).isEmpty = true ↔
      (source.machines.drop first).take count = [] := by
    rw [take_drop_units hsource, List.isEmpty_iff, ← List.length_eq_zero_iff, length_rowsOf,
      List.length_eq_zero_iff]
  unfold appendRange Outcome.ofExcept
  rw [(check_eq_ok_iff target).2 htarget, (check_eq_ok_iff source).2 hsource]
  dsimp only
  by_cases hchosen : (source.machines.drop first).take count = []
  · rw [if_pos (hselected.2 hchosen), if_pos hchosen]
  · rw [if_neg (mt hselected.1 hchosen), if_neg hchosen]
    unfold withRange appendBase
    by_cases hempty : target.isEmpty = true
    · rw [if_pos hempty, if_pos (Or.inl hempty), if_pos hempty,
        extend_range (violation?_empty source.schema) hsource hchosen]
      rfl
    · rw [if_neg hempty, if_neg hempty]
      by_cases hschema : target.schema = source.schema
      · rw [if_pos hschema, if_pos (Or.inr hschema), extend_range htarget hsource hchosen, hschema]
      · rw [if_neg hschema, if_neg (not_or.2 ⟨hempty, hschema⟩)]

theorem sound_appendRange (htarget : target.violation? = none) (hsource : source.violation? = none)
    (first count : Nat) : (target.appendRange source first count).Sound := by
  rw [appendRange_eq htarget hsource]
  split
  · exact htarget
  · split
    · rename_i hschema
      apply violation?_ofMachines
      intro m hm
      rcases List.mem_append.1 hm with hm | hm
      · unfold appendBase at hm
        split at hm
        · cases hm
        · rw [← hschema.resolve_left ‹_›]
          exact fits_of_violation?_eq_none htarget m hm
      · exact fits_of_violation?_eq_none hsource m (List.mem_of_mem_drop (List.mem_of_mem_take hm))
    · exact htarget

end Automaton

end WeightedAutomata
