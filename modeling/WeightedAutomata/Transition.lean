-- Labels and transitions, and the schema that says which optional parts the
-- transitions of an automaton carry.
import WeightedAutomata.Semiring

namespace WeightedAutomata

/-! ## Labels -/

/-- What a transition reads or writes. A symbol is a row of a symbol table, or the code
point of a character in the automaton of a pattern. The others are markers. -/
inductive Label where
  | epsilon
  | symbol (number : Nat)
  | anyChar
  | notInSet
  | startAnchor
  | endAnchor
  deriving DecidableEq, Hashable

namespace Label

/-- The label that reads one given character. -/
def ofChar (c : Char) : Label := symbol c.toNat

def isEpsilon : Label → Bool
  | epsilon => true
  | _ => false

def isSymbol : Label → Bool
  | symbol _ => true
  | _ => false

end Label

/-! ## Transitions -/

/-- An arc between two states of one unit, which are counted within that unit. -/
structure Transition where
  source : Nat
  target : Nat
  input : Option Label := none
  output : Option Label := none
  weight : Option Float := none

namespace Transition

/-- The label that the transition reads: without an input label it reads nothing. -/
def inputLabel (t : Transition) : Label := t.input.getD .epsilon

def isLoop (t : Transition) : Bool := t.source == t.target

/-- Weights agree when they are equal as numbers: the two zeros agree, and a weight that
is not a number agrees with none. -/
def weightsAgree : Option Float → Option Float → Bool
  | none, none => true
  | some v, some w => Float.beq v w
  | _, _ => false

/-- Two transitions are the same arc when all parts are equal and the weights agree. -/
def sameArc (s t : Transition) : Bool :=
  decide (s.source = t.source) && decide (s.target = t.target) &&
    decide (s.input = t.input) && decide (s.output = t.output) && weightsAgree s.weight t.weight

end Transition

/-! ## Schemas -/

/-- The optional parts that every transition of an automaton has to carry. -/
structure Schema where
  input : Bool := false
  output : Bool := false
  semiring : Option Semiring := none
  deriving DecidableEq

namespace Schema

/-- Input labels only. -/
def acceptor : Schema := { input := true }

/-- Input and output labels. -/
def transducer : Schema := { input := true, output := true }

/-- A transition fits when it carries exactly the parts that the schema names. -/
def admits (schema : Schema) (t : Transition) : Bool :=
  t.input.isSome == schema.input && t.output.isSome == schema.output &&
    t.weight.isSome == schema.semiring.isSome

/-- Gives a transition without weight the neutral one, where weights are carried. -/
def complete (schema : Schema) (t : Transition) : Transition :=
  match schema.semiring, t.weight with
  | some semiring, none => { t with weight := some semiring.one }
  | _, _ => t

end Schema

end WeightedAutomata
