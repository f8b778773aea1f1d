-- Whole units from one automaton to another: a range of units appended at the end, and
-- a selection of units that replaces what was there. Symbol tables go along where the
-- labels need them.
import WeightedAutomata.Automaton.Edit
import WeightedAutomata.Automaton.Integrity

namespace WeightedAutomata

namespace Automaton

/-! ## Appending -/

/-- A table without names gives way to a table with names. -/
def inheritTable (own other : SymbolTable) : SymbolTable :=
  if own.isEmpty && !other.isEmpty then other else own

/-- The rows of a table from row `start` up to row `stop`, `stop` excluded. -/
def rowsBetween? {α : Type} (table : List α) (start stop : Nat) : Option (List α) :=
  if start ≤ stop then rows? table start (stop - start) else none

/-- The tables with `selected` rows of `source` behind those of `target`. The rows of the
selected units stand together in `source`, so one shift moves them all. A row that stands
before the rows of the first unit could not be moved. -/
def extend (target source : Automaton) (selected : List UnitRow) : Except Fault Automaton :=
  match selected.head?, selected.getLast? with
  | some first, some last =>
    let states? := rowsBetween? source.states first.firstState (last.firstState + last.stateCount)
    let transitions? := rowsBetween? source.transitions first.firstTransition
      (last.firstTransition + last.transitionCount)
    let behind (row : UnitRow) : Bool := decide (first.firstState ≤ row.firstState) &&
      decide (first.firstTransition ≤ row.firstTransition)
    match states?, transitions? with
    | some states, some transitions =>
      if selected.all behind then
        .ok { target with
          units := target.units ++ selected.map fun row =>
            { row with
              firstState := row.firstState - first.firstState + target.states.length
              firstTransition :=
                row.firstTransition - first.firstTransition + target.transitions.length }
          states := target.states ++ states
          transitions := target.transitions ++ transitions
          inputSymbols := inheritTable target.inputSymbols source.inputSymbols
          outputSymbols := inheritTable target.outputSymbols source.outputSymbols }
      else .error .missingRow
    | _, _ => .error .missingRow
  | _, _ => .ok target

/-- Appends `count` units of `source` from unit `first` on, or as many as there are. An
automaton without units takes over the schema and starts from empty symbol tables. -/
def appendRange (target source : Automaton) (first count : Nat) : Outcome Unit :=
  .ofExcept target.check fun _ => .ofExcept source.check fun _ =>
    let selected := (source.units.drop first).take count
    if selected.isEmpty then .refused (.badUnit first source.units.length) target
    else if target.isEmpty then
      .ofExcept ((empty source.schema).extend source selected) (.done ())
    else if target.schema = source.schema then
      .ofExcept (target.extend source selected) (.done ())
    else .refused (.schemaMismatch (.units source.schema target.schema)) target

/-- Appends all units. -/
def append (target source : Automaton) : Outcome Unit :=
  target.appendRange source 0 source.units.length

/-! ## Selecting -/

/-- Which units to take. A list may repeat units and may name units that do not exist. -/
inductive Selection where
  | all
  | single (unit : Nat)
  | list (units : List Int)

/-- The unit numbers asked for, of an automaton with `count` units. -/
def Selection.wanted (count : Nat) : Selection → List Int
  | .all => (List.range count).map Int.ofNat
  | .single unit => [Int.ofNat unit]
  | .list units => units

/-- A number that names one of `count` units. -/
def namesUnit (count : Nat) (unit : Int) : Bool := decide (0 ≤ unit) && decide (unit < count)

/-- What a selection took, and the numbers that named no unit. -/
structure CopySummary where
  copied : Nat := 0
  skipped : List Int := []

/-- Tables that give each unit of `source` a column of its own are not taken over whole. -/
def globalTable (own : SymbolTable) (source : Automaton) (other : SymbolTable) : SymbolTable :=
  if other.columnCount = source.units.length then own else other

/-- Takes over the symbol tables of `source` that are not tables by unit. -/
def takeGlobalTables (target source : Automaton) : Automaton :=
  { target with
    inputSymbols := globalTable target.inputSymbols source source.inputSymbols
    outputSymbols := globalTable target.outputSymbols source source.outputSymbols }

/-- Replaces `target` by the selected units of `source`. An empty list changes nothing, and
a single unit that does not exist is refused. -/
def copyUnits (target source : Automaton) (selection : Selection) : Outcome CopySummary :=
  let count := source.units.length
  match selection with
  | .list [] => .done {} target
  | .single unit =>
    if unit < count then copy count else .refused (.badUnit unit count) target
  | _ => copy count
where
  /-- The replacement, once the selection is known to be good. -/
  copy (count : Nat) : Outcome CopySummary :=
    let wanted := selection.wanted count
    let found := (wanted.filter (namesUnit count)).map Int.toNat
    let add (a : Automaton) (unit : Nat) : Outcome Unit := a.appendRange source unit 1
    (Outcome.forEach add (empty source.schema) found).andThen fun _ after =>
      .done ⟨found.length, wanted.filter (!namesUnit count ·)⟩
        (after.takeGlobalTables source)

end Automaton

end WeightedAutomata
