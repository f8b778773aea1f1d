-- The container of automata. Its units are independent machines whose states and
-- transitions are packed one unit after another in two tables. `machines` reads the
-- tables as a list of machines and `ofMachines` packs such a list.
import WeightedAutomata.Error
import WeightedAutomata.SymbolTable

namespace WeightedAutomata

/-! ## State flags -/

/-- The flag byte of a state. The lowest bit marks a final state, and the others are kept
as they are. -/
abbrev Flags := UInt8

namespace Flags

def isFinal (flags : Flags) : Bool := flags &&& 1 != 0

def withFinal (flags : Flags) (final : Bool) : Flags :=
  if final then flags ||| 1 else flags &&& 0xFE

/-- The byte of a new state. -/
def ofFinal (final : Bool) : Flags := if final then 1 else 0

end Flags

/-! ## Machines and packed tables -/

/-- One automaton on its own: the flag byte of each state, and the transitions. State 0
is the start. -/
structure Machine where
  name : String
  flags : List Flags
  transitions : List Transition

/-- One row of the unit table: where the unit's rows stand in the other two tables. -/
structure UnitRow where
  name : String
  firstState : Nat
  stateCount : Nat
  firstTransition : Nat
  transitionCount : Nat
  deriving DecidableEq

/-- Packed tables of states and transitions with a table of units over them. Nothing here
makes the tables agree with each other: `Automaton.violation?` tells whether they do. -/
structure Automaton where
  schema : Schema
  units : List UnitRow := []
  states : List Flags := []
  transitions : List Transition := []
  inputSymbols : SymbolTable := {}
  outputSymbols : SymbolTable := {}

/-- The rows `first`, …, `first + count - 1` of a table that has them all. -/
def rows? {α : Type} (table : List α) (first count : Nat) : Option (List α) :=
  if first + count ≤ table.length then some ((table.drop first).take count) else none

namespace Automaton

/-- An automaton without units. -/
def empty (schema : Schema) : Automaton := { schema }

def isEmpty (a : Automaton) : Bool := a.units.isEmpty

/-- Drops units, states, transitions and symbols, and keeps the schema. -/
def reset (a : Automaton) : Automaton := empty a.schema

/-! ## Reading a unit -/

/-- The flag bytes of a unit's states. -/
def flagsOf (a : Automaton) (unit : Nat) : Except Fault (List Flags) :=
  match a.units[unit]? >>= fun row => rows? a.states row.firstState row.stateCount with
  | some flags => .ok flags
  | none => .error .missingRow

/-- The transitions of a unit. -/
def transitionsOf (a : Automaton) (unit : Nat) : Except Fault (List Transition) :=
  match a.units[unit]? >>= fun row =>
      rows? a.transitions row.firstTransition row.transitionCount with
  | some transitions => .ok transitions
  | none => .error .missingRow

/-- One unit taken out of the tables. -/
def machineOf (a : Automaton) (unit : Nat) : Except Fault Machine := do
  let flags ← a.flagsOf unit
  let transitions ← a.transitionsOf unit
  match a.units[unit]? with
  | some row => .ok ⟨row.name, flags, transitions⟩
  | none => .error .missingRow

/-- Whether a state of a unit is final. A state that the unit does not have is not. -/
def isFinal (a : Automaton) (unit state : Nat) : Except Fault Bool :=
  match a.units[unit]? with
  | none => .ok false
  | some row =>
    if state < row.stateCount then
      match a.states[row.firstState + state]? with
      | some flags => .ok flags.isFinal
      | none => .error .missingRow
    else .ok false

/-! ## The view as machines -/

/-- The rows that a unit points at, as a machine. -/
def machineAt (a : Automaton) (row : UnitRow) : Machine where
  name := row.name
  flags := (a.states.drop row.firstState).take row.stateCount
  transitions := (a.transitions.drop row.firstTransition).take row.transitionCount

/-- The units as independent machines. -/
def machines (a : Automaton) : List Machine := a.units.map a.machineAt

/-- Unit rows of machines packed behind the given numbers of states and transitions. -/
def rowsOf (states transitions : Nat) : List Machine → List UnitRow
  | [] => []
  | m :: ms =>
    ⟨m.name, states, m.flags.length, transitions, m.transitions.length⟩ ::
      rowsOf (states + m.flags.length) (transitions + m.transitions.length) ms

/-- Packs machines one after another. -/
def ofMachines (schema : Schema) (ms : List Machine)
    (inputSymbols outputSymbols : SymbolTable := {}) : Automaton where
  schema
  units := rowsOf 0 0 ms
  states := ms.flatMap (·.flags)
  transitions := ms.flatMap (·.transitions)
  inputSymbols
  outputSymbols

/-! ## Equality -/

/-- Two automata are the same when all tables are, transitions compared as arcs. -/
def same (a b : Automaton) : Bool :=
  decide (a.units = b.units) && decide (a.states = b.states) &&
    (a.transitions.length == b.transitions.length &&
      (a.transitions.zip b.transitions).all fun (s, t) => s.sameArc t) &&
    decide (a.schema = b.schema) && decide (a.inputSymbols = b.inputSymbols) &&
    decide (a.outputSymbols = b.outputSymbols)

end Automaton

end WeightedAutomata
