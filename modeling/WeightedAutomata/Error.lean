-- What can go wrong, as causes. A request may be refused, which is an error of the
-- caller. Tables that do not hold what they promise break an operation, which is a
-- fault. The wording of both is in `Message`.
import WeightedAutomata.Transition

namespace WeightedAutomata

/-- A place where the tables of an automaton are not the packing of its units. -/
inductive Violation where
  | stateOffset (unit expected actual : Nat)
  | transitionOffset (unit expected actual : Nat)
  | stateTotal (described actual : Nat)
  | transitionTotal (described actual : Nat)
  | stateOutOfRange (unit transition state count : Nat)
  | schema (transition : Nat)
  deriving DecidableEq

/-- Why an operation cannot be carried out on the tables it was given. -/
inductive Fault where
  /-- An operation that relies on packed tables found them otherwise. -/
  | integrity (violation : Violation)
  /-- A unit, or a row that a unit promises, does not exist. -/
  | missingRow
  /-- A state number past the last 32-bit number was asked for. -/
  | stateNumberOverflow
  deriving DecidableEq

/-- Why a text is no pattern, with the position of the character at fault. -/
inductive PatternError where
  | unmatchedParen (position : Nat)
  | unmatchedBracket (position : Nat)
  | trailingEscape (position : Nat)
  deriving DecidableEq

/-- What did not fit a schema. -/
inductive SchemaMismatch where
  | transition (t : Transition) (schema : Schema)
  | units (source target : Schema)

/-- Why a request is refused. -/
inductive Error where
  | badUnit (unit count : Nat)
  | badState (unit state count : Nat)
  | emptyUnit (unit : Nat)
  | noUnits
  | schemaMismatch (mismatch : SchemaMismatch)
  | depthExceeded (limit : Nat)
  | pattern (error : PatternError)

/-- Why a question about an automaton has no answer. -/
inductive Halt where
  | refused (error : Error)
  | broken (fault : Fault)

end WeightedAutomata
