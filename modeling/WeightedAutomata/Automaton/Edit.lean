-- Edits of an automaton: new units, new states, new transitions, final flags. An edit
-- reaches one unit, and moves the rows of later units along. An edit that is refused
-- leaves the automaton as it was.
import WeightedAutomata.Automaton.Basic

namespace WeightedAutomata

/-- What an edit leads to. A refusal keeps the automaton that stands afterwards, a fault
leaves none. -/
inductive Outcome (α : Type) where
  | done (value : α) (after : Automaton)
  | refused (error : Error) (after : Automaton)
  | broken (fault : Fault)

namespace Outcome

/-- Goes on with the next edit where the one before was carried out. -/
def andThen {α β : Type} : Outcome α → (α → Automaton → Outcome β) → Outcome β
  | done value after, next => next value after
  | refused error after, _ => refused error after
  | broken fault, _ => broken fault

/-- Refuses nothing, but breaks where the question has no answer. -/
def ofExcept {α β : Type} (answer : Except Fault α) (next : α → Outcome β) : Outcome β :=
  match answer with
  | .ok value => next value
  | .error fault => broken fault

/-- Carries out one edit per item, in order, up to the first refusal. -/
def forEach {α β : Type} (edit : Automaton → α → Outcome β) (a : Automaton) :
    List α → Outcome Unit
  | [] => done () a
  | item :: items => (edit a item).andThen fun _ after => forEach edit after items

end Outcome

namespace Automaton

/-! ## Units -/

/-- Adds a unit without states, and tells its number. -/
def addUnit (a : Automaton) (name : String) : Nat × Automaton :=
  (a.units.length,
    { a with units := a.units ++ [⟨name, a.states.length, 0, a.transitions.length, 0⟩] })

/-- Changes one unit row by `own` and all rows after it by `later`. -/
def changeRows (units : List UnitRow) (unit : Nat) (own later : UnitRow → UnitRow) :
    List UnitRow :=
  units.mapIdx fun i row => if i < unit then row else if i = unit then own row else later row

/-- What is told of the number of a new row: its lower 32 bits. -/
def told (number : Nat) : Nat := number % 4294967296

/-! ## States -/

/-- Puts states at the end of a unit, and gives the whole number of the first of them. -/
def insertStates (a : Automaton) (unit count : Nat) (final : Bool) : Outcome Nat :=
  match a.units[unit]? with
  | none => .refused (.badUnit unit a.units.length) a
  | some row =>
    let place := row.firstState + row.stateCount
    if a.states.length < place then .broken .missingRow
    else
      .done row.stateCount
        { a with
          units := changeRows a.units unit
            (fun own => { own with stateCount := own.stateCount + count })
            (fun later => { later with firstState := later.firstState + count })
          states := a.states.take place ++ List.replicate count (Flags.ofFinal final) ++
            a.states.drop place }

/-- Adds states at the end of a unit, and tells the number of the first of them. -/
def addStates (a : Automaton) (unit count : Nat) (final : Bool) : Outcome Nat :=
  (a.insertStates unit count final).andThen fun first after => .done (told first) after

/-- Sets or clears the final flag of a state. -/
def setFinal (a : Automaton) (unit state : Nat) (final : Bool) : Outcome Unit :=
  match a.units[unit]? with
  | none => .refused (.badUnit unit a.units.length) a
  | some row =>
    if state < row.stateCount then
      if row.firstState + state < a.states.length then
        .done () { a with states := a.states.modify (row.firstState + state) (·.withFinal final) }
      else .broken .missingRow
    else .refused (.badState unit state row.stateCount) a

/-! ## Transitions -/

/-- Adds a transition at the end of a unit, and tells its number within the unit. Its ends
have to be states of the unit, the source looked at first, and it has to fit the schema
once a missing weight is completed. -/
def addTransition (a : Automaton) (unit : Nat) (t : Transition) : Outcome Nat :=
  match a.units[unit]? with
  | none => .refused (.badUnit unit a.units.length) a
  | some row =>
    if row.stateCount ≤ t.source then .refused (.badState unit t.source row.stateCount) a
    else if row.stateCount ≤ t.target then .refused (.badState unit t.target row.stateCount) a
    else
      let t := a.schema.complete t
      if a.schema.admits t then
        let place := row.firstTransition + row.transitionCount
        if a.transitions.length < place then .broken .missingRow
        else
          .done (told row.transitionCount)
            { a with
              units := changeRows a.units unit
                (fun own => { own with transitionCount := own.transitionCount + 1 })
                (fun later => { later with firstTransition := later.firstTransition + 1 })
              transitions := a.transitions.take place ++ t :: a.transitions.drop place }
      else .refused (.schemaMismatch (.transition t a.schema)) a

/-! ## Symbols -/

/-- The two symbol tables of an automaton. -/
inductive Side where
  | input
  | output
  deriving DecidableEq

/-- The symbol table on one side. -/
def symbols (a : Automaton) : Side → SymbolTable
  | .input => a.inputSymbols
  | .output => a.outputSymbols

/-- Replaces the symbol table on one side. -/
def setSymbols (a : Automaton) (side : Side) (table : SymbolTable) : Automaton :=
  match side with
  | .input => { a with inputSymbols := table }
  | .output => { a with outputSymbols := table }

end Automaton

end WeightedAutomata
