-- The wording of errors, faults and violations. Transitions and schemas stand in
-- messages as records with all their fields.
import WeightedAutomata.Decimal.Notation
import WeightedAutomata.Error

namespace WeightedAutomata

/-! ## Records in messages -/

/-- A record with its fields in order. -/
def recordText (name : String) (fields : List (String × String)) : String :=
  name ++ " \x7b " ++ ", ".intercalate (fields.map fun (key, value) => key ++ ": " ++ value) ++
    " \x7d"

/-- A part that may be absent. -/
def optionText {α : Type} (text : α → String) : Option α → String
  | none => "None"
  | some value => "Some(" ++ text value ++ ")"

def Semiring.text : Semiring → String
  | probability => "Probability"
  | log => "Log"
  | tropical => "Tropical"

def Label.text : Label → String
  | epsilon => "Epsilon"
  | symbol number => "Symbol(" ++ toString number ++ ")"
  | anyChar => "AnyChar"
  | notInSet => "NotInSet"
  | startAnchor => "StartAnchor"
  | endAnchor => "EndAnchor"

def Transition.text (t : Transition) : String :=
  recordText "Transition"
    [("ini", toString t.source), ("ter", toString t.target),
      ("input", optionText Label.text t.input), ("output", optionText Label.text t.output),
      ("weight", optionText Decimal.Style.exact.write t.weight)]

def Schema.text (schema : Schema) : String :=
  recordText "Schema"
    [("input", toString schema.input), ("output", toString schema.output),
      ("semiring", optionText Semiring.text schema.semiring)]

/-! ## Messages -/

def Violation.message : Violation → String
  | stateOffset unit expected actual =>
    s!"unit {unit}: first state is {actual}, expected {expected}"
  | transitionOffset unit expected actual =>
    s!"unit {unit}: first transition is {actual}, expected {expected}"
  | stateTotal described actual =>
    s!"units describe {described} states but the state table has {actual}"
  | transitionTotal described actual =>
    s!"units describe {described} transitions but the transition table has {actual}"
  | stateOutOfRange unit transition state count =>
    s!"unit {unit}, transition {transition}: state {state} out of range (unit has {count})"
  | schema transition => s!"transition {transition}: fields do not match the automaton schema"

/-- The wording of a fault that has one. -/
def Fault.message? : Fault → Option String
  | integrity violation => some ("automaton integrity violated: " ++ violation.message)
  | missingRow => none
  | stateNumberOverflow => none

def PatternError.message : PatternError → String
  | unmatchedParen position => s!"no matching ')' for '(' at position {position}"
  | unmatchedBracket position => s!"no matching ']' for '[' at position {position}"
  | trailingEscape position => s!"trailing backslash at position {position}"

def SchemaMismatch.message : SchemaMismatch → String
  | transition t schema => "transition " ++ t.text ++ " does not fit schema " ++ schema.text
  | units source target =>
    "cannot append " ++ source.text ++ " units to a " ++ target.text ++ " automaton"

def Error.message : Error → String
  | badUnit unit count => s!"unit {unit} out of range (automaton has {count} units)"
  | badState unit state count => s!"state {state} out of range (unit {unit} has {count} states)"
  | emptyUnit unit => s!"unit {unit} has no states"
  | noUnits => "automaton has no units"
  | schemaMismatch mismatch => "schema mismatch: " ++ mismatch.message
  | depthExceeded limit => s!"match search exceeded the depth limit of {limit}"
  | pattern error => "regex syntax error: " ++ error.message

end WeightedAutomata
