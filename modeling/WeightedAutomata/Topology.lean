-- What kind of automaton it is, and what graph each of its units is. A unit is looked at
-- through the number of transitions that enter and leave each state, loops left out.
import WeightedAutomata.Properties
import WeightedAutomata.TransitionIndex

namespace WeightedAutomata

/-! ## One machine -/

/-- How many transitions other than loops each of `stateCount` states has at one end. -/
def degrees (stateCount : Nat) (direction : Direction) (transitions : List Transition) :
    Array Nat :=
  transitions.foldl
    (fun counts t => if t.isLoop then counts else counts.modify (t.endAt direction) (· + 1))
    (Array.replicate stateCount 0)

/-- The graph properties of a machine. -/
def Machine.topology (m : Machine) : Properties :=
  let entering := degrees m.flags.length .incoming m.transitions
  let leaving := degrees m.flags.length .outgoing m.transitions
  let every (holds : Flags → Nat → Nat → Nat → Bool) : Bool :=
    m.flags.zipIdx.all fun (flags, s) => holds flags s (entering[s]?.getD 0) (leaving[s]?.getD 0)
  let connectedForward := every fun _ s entered _ => s == 0 || 0 < entered
  let connectedBackward := every fun flags _ _ left => flags.isFinal || 0 < left
  let treeForward := every fun _ _ entered _ => entered ≤ 1
  let treeBackward := every fun _ s _ left => s == 0 || left ≤ 1
  (Properties.given (m.transitions.any (·.isLoop)) .loops).union <|
    (Properties.given connectedForward .forwardConnected).union <|
      (Properties.given connectedBackward .backwardConnected).union <|
        (Properties.given treeForward .forwardTree).union <|
          Properties.given treeBackward .backwardTree

/-! ## Whole automata -/

namespace Automaton

/-- What the schema says of the transitions. -/
def kind (a : Automaton) (mask : Properties := .none) : Properties :=
  mask.select <|
    (Properties.given a.schema.input .acceptor).union <|
      (Properties.given (a.schema.input && a.schema.output) .transducer).union <|
        Properties.given a.schema.semiring.isSome .weighted

/-- The graph properties that all of the given units have. -/
def commonTopology (a : Automaton) : List Nat → Except Fault Properties
  | [] => .ok .topology
  | unit :: units => do
    let m ← a.machineOf unit
    let common ← a.commonTopology units
    return m.topology.inter common

/-- The properties of a unit, or without a unit those of all units together. -/
def analyze (a : Automaton) (unit : Option Nat) (mask : Properties := .none) :
    Except Halt Properties :=
  match unit with
  | some u =>
    if u < a.units.length then answer (a.machineOf u |>.map (·.topology))
    else .error (.refused (.badUnit u a.units.length))
  | none => answer (a.commonTopology (List.range a.units.length))
where
  /-- Joins graph properties with those of the schema. -/
  answer : Except Fault Properties → Except Halt Properties
    | .ok topology => .ok (mask.select (topology.union a.kind))
    | .error fault => .error (.broken fault)

end Automaton

end WeightedAutomata
