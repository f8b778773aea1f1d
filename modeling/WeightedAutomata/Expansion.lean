-- The expansion of a machine splits each state by the labels that it is entered with. A
-- state of the expansion stands for a state of the machine and such a label. Only what
-- can be reached from the start is kept, and states are numbered as a breadth-first scan
-- meets them. Every path of the machine is a path of its expansion, with the same labels
-- and weights.
import Std.Data.HashMap
import WeightedAutomata.Automaton.Edit
import WeightedAutomata.Automaton.Integrity
import WeightedAutomata.TransitionIndex

namespace WeightedAutomata

namespace Expansion

/-- What a state of the expansion stands for: a state, and the label it is entered with. -/
structure Origin where
  state : Nat
  label : Label
  deriving DecidableEq, Hashable

/-- The start is entered without reading anything. -/
def Origin.start : Origin := ⟨0, .epsilon⟩

/-- The origin that a transition leads to. -/
def Origin.of (t : Transition) : Origin := ⟨t.target, t.inputLabel⟩

/-- An expansion under way: the origins met so far in order, the number of each, and the
transitions drawn so far in order. -/
structure Scan where
  origins : Array Origin
  numbers : Std.HashMap Origin Nat
  transitions : Array Transition

namespace Scan

def start : Scan where
  origins := #[.start]
  numbers := Std.HashMap.emptyWithCapacity.insert .start 0
  transitions := #[]

/-- The number of an origin, which is the next one when it was not met before. -/
def number (scan : Scan) (origin : Origin) : Nat × Scan :=
  match scan.numbers[origin]? with
  | some number => (number, scan)
  | none =>
    let number := scan.origins.size
    (number,
      { scan with
        origins := scan.origins.push origin
        numbers := scan.numbers.insert origin number })

/-- Draws a transition that leaves the state of number `source`. -/
def follow (source : Nat) (scan : Scan) (t : Transition) : Scan :=
  let (target, scan) := scan.number (.of t)
  { scan with transitions := scan.transitions.push { t with source, target } }

/-- Draws all transitions that leave the state of number `source`, once it is met. -/
def visit (index : TransitionIndex) (scan : Scan) (source : Nat) : Scan :=
  match scan.origins[source]? with
  | none => scan
  | some origin => (index.transitions origin.state).foldl (follow source) scan

end Scan

/-- The scan of all origins. Each origin but the first is met through a transition of its
own, so there is at most one more of them than transitions. -/
def scan (m : Machine) : Scan :=
  let index := TransitionIndex.ofTransitions m.flags.length m.transitions .outgoing
  (List.range (m.transitions.length + 1)).foldl (Scan.visit index) .start

end Expansion

/-- The expansion of a machine. A machine without states has no start to expand. An origin
that is no state of the machine breaks it. -/
def Machine.expand (m : Machine) : Except Fault Machine :=
  if m.flags.isEmpty then .ok { m with transitions := [] }
  else
    let flags := m.flags.toArray
    let done := Expansion.scan m
    if done.origins.all fun origin => decide (origin.state < flags.size) then
      .ok { m with
        flags := done.origins.toList.map fun origin => flags[origin.state]?.getD 0
        transitions := done.transitions.toList }
    else .error .missingRow

namespace Automaton

/-- The expansion of one unit, or without a unit of every unit, with the schema and the
symbols of `source`. -/
def expand (source : Automaton) (unit : Option Nat) : Except Halt Automaton :=
  match source.check with
  | .error fault => .error (.broken fault)
  | .ok () =>
    match unit with
    | none => pack source.machines
    | some u =>
      match source.machines[u]? with
      | some m => pack [m]
      | none => .error (.refused (.badUnit u source.units.length))
where
  /-- The expansions of machines, packed. -/
  pack (ms : List Machine) : Except Halt Automaton :=
    match ms.mapM Machine.expand with
    | .ok expansions =>
      .ok (ofMachines source.schema expansions source.inputSymbols source.outputSymbols)
    | .error fault => .error (.broken fault)

/-- Replaces `target` by an expansion of `source`. -/
def becomeExpansion (target source : Automaton) (unit : Option Nat) : Outcome Unit :=
  match source.expand unit with
  | .ok expansion => .done () expansion
  | .error (.refused error) => .refused error target
  | .error (.broken fault) => .broken fault

end Automaton

end WeightedAutomata
