-- The transitions of a unit gathered by the state at one of their ends. Each state has
-- its bundle, in which the transitions keep the order of the table.
import WeightedAutomata.Automaton.Basic

namespace WeightedAutomata

/-- The end of a transition that counts. -/
inductive Direction where
  /-- By source: what leaves a state. -/
  | outgoing
  /-- By target: what enters a state. -/
  | incoming
  deriving DecidableEq

/-- The state at the end that counts. -/
def Transition.endAt (t : Transition) : Direction → Nat
  | .outgoing => t.source
  | .incoming => t.target

/-- A bundle of transitions for each state, every transition with its number in the unit. -/
structure TransitionIndex where
  bundles : Array (List (Nat × Transition))

namespace TransitionIndex

/-- Puts a transition in front of a bundle. -/
def add (direction : Direction) (entry : Nat × Transition)
    (bundles : Array (List (Nat × Transition))) : Array (List (Nat × Transition)) :=
  bundles.modify (entry.2.endAt direction) (entry :: ·)

/-- Gathers the transitions of a unit with `stateCount` states. From the last to the first
each goes to the front of its bundle, so that a bundle ends up in the order of the table. -/
def ofTransitions (stateCount : Nat) (transitions : List Transition) (direction : Direction) :
    TransitionIndex where
  bundles :=
    (transitions.zipIdx.map fun (t, number) => (number, t)).foldr (add direction)
      (Array.replicate stateCount [])

/-- The index of a unit. An end that is no state of the unit breaks it. -/
def ofUnit (a : Automaton) (unit : Nat) (direction : Direction) :
    Except Fault TransitionIndex := do
  let transitions ← a.transitionsOf unit
  match a.units[unit]? with
  | none => throw .missingRow
  | some row =>
    if transitions.all fun t => decide (t.endAt direction < row.stateCount) then
      return ofTransitions row.stateCount transitions direction
    else throw .missingRow

/-- The bundle of a state, empty where there is no such state. -/
def bundle (index : TransitionIndex) (state : Nat) : List (Nat × Transition) :=
  index.bundles[state]?.getD []

/-- The numbers of the transitions at a state. -/
def numbers (index : TransitionIndex) (state : Nat) : List Nat := (index.bundle state).map (·.1)

/-- The transitions at a state. -/
def transitions (index : TransitionIndex) (state : Nat) : List Transition :=
  (index.bundle state).map (·.2)

/-- The transition at a state that stands `k` places behind the first. -/
def transition? (index : TransitionIndex) (state k : Nat) : Option Transition :=
  ((index.bundle state)[k]?).map (·.2)

/-- How many transitions there are at a state. -/
def degree (index : TransitionIndex) (state : Nat) : Nat := (index.bundle state).length

end TransitionIndex

end WeightedAutomata
