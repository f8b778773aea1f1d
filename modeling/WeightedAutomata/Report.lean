-- Reports on an automaton for readers: the sizes of its tables, its kind, and the
-- properties of each unit. The listing shows the transitions of each unit as well.
import WeightedAutomata.Decimal.Notation
import WeightedAutomata.Text.Column
import WeightedAutomata.Topology

namespace WeightedAutomata

namespace Report

def yesNo (b : Bool) : String := if b then "yes" else "no"

/-- Lines, each with a line end. -/
def ofLines (lines : List String) : String := String.join (lines.map (· ++ "\n"))

/-! ## Labels -/

/-- Control characters have no sign of their own. -/
def isControl (code : Nat) : Bool := code < 0x20 || (0x7F ≤ code && code < 0xA0)

/-- A symbol without a name: the character of that code point in quotes, or else the
number. -/
def codeText (code : Nat) : String :=
  if Nat.isValidChar code ∧ ¬ isControl code then
    "'" ++ String.singleton (Char.ofNat code) ++ "'"
  else "#" ++ toString code

/-- A label, with symbols looked up in a column of a table that has names. -/
def labelText (symbols : SymbolTable) (column : Nat) : Label → String
  | .epsilon => "<eps>"
  | .anyChar => "<any>"
  | .notInSet => "<not>"
  | .startAnchor => "<^>"
  | .endAnchor => "<$>"
  | .symbol code =>
    if symbols.isEmpty then codeText code
    else (symbols.nameIn? column code).getD ("#" ++ toString code)

/-- The column that serves a unit: its own where each unit has one, or else the first. -/
def columnFor (a : Automaton) (symbols : SymbolTable) (unit : Nat) : Nat :=
  if symbols.columnCount = a.units.length then unit else 0

/-! ## Transitions -/

/-- The next state numbers, unless they are past the last 32-bit number. -/
def ahead (state steps : Nat) : Except Fault Nat :=
  if state + steps < UInt32.size then .ok (state + steps) else .error .stateNumberOverflow

/-- The shape of a transition in a word. The first that fits is taken. -/
def shape (a : Automaton) (unit : Nat) (t : Transition) : Except Fault String := do
  if ← a.isFinal unit t.target then return "end"
  if t.isLoop then return "loop"
  if (← ahead t.source 1) == t.target then return "next"
  if (← ahead t.source 2) == t.target then return "2next"
  if t.source == 0 then return "start"
  return if t.target < t.source then "back" else ""

/-- A state number, in parentheses where the state is final. -/
def stateText (a : Automaton) (unit state : Nat) : Except Fault String := do
  let number := toString state
  return if ← a.isFinal unit state then "(" ++ number ++ ")" else " " ++ number ++ " "

/-- One line of the listing. -/
def transitionLine (a : Automaton) (unit number : Nat) (t : Transition) : Except Fault String := do
  let source ← stateText a unit t.source
  let target ← stateText a unit t.target
  let shape ← shape a unit t
  let label (symbols : SymbolTable) := labelText symbols (columnFor a symbols unit)
  let input := (t.input.map fun l => " " ++ label a.inputSymbols l).getD ""
  let output := (t.output.map fun l => ":" ++ label a.outputSymbols l).getD ""
  let weight := (t.weight.map fun w => " / " ++ Decimal.Style.full.write w).getD ""
  return "  " ++ Text.alignRight 7 (toString number) ++ ": " ++ Text.alignRight 8 source ++
    " -> " ++ Text.alignLeft 8 target ++ " " ++ Text.alignLeft 6 shape ++ input ++ output ++ weight

/-- The lines of all transitions of a unit. -/
def transitionLines (a : Automaton) (unit : Nat) : Except Fault (List String) := do
  let transitions ← a.transitionsOf unit
  let lines ← transitions.zipIdx.mapM fun (t, number) => transitionLine a unit number t
  return "  Transitions" :: lines

/-! ## Units and tables -/

/-- The graph properties in the order of the report. -/
def topologyNames : List (Properties × String) :=
  [(.loops, "Loops"), (.forwardConnected, "Forward connected"),
    (.backwardConnected, "Backward connected"), (.forwardTree, "Forward tree"),
    (.backwardTree, "Backward tree")]

/-- A count and where it begins. -/
def spanText (count first : Nat) : String :=
  Text.alignLeft 4 (toString count) ++ " (offset: " ++ toString first ++ ")"

/-- The lines on one unit, with its transitions where asked for and where there are some. -/
def unitLines (a : Automaton) (listing : Bool) (unit : Nat) (row : UnitRow) :
    Except Fault (List String) := do
  let topology := (← a.machineOf unit).topology
  let field (name value : String) : String := "  " ++ Text.alignLeft 18 name ++ ": " ++ value
  let transitions ← if listing && 0 < row.transitionCount then transitionLines a unit else .ok []
  return ["", "Unit " ++ toString unit, field "Name" ("'" ++ row.name ++ "'"),
      field "States" (spanText row.stateCount row.firstState),
      field "Transitions" (spanText row.transitionCount row.firstTransition)] ++
    topologyNames.map (fun (p, name) => field name (yesNo (topology.contains p))) ++ transitions

/-- The lines on the tables as a whole. -/
def tableLines (a : Automaton) : List String :=
  let field (name value : String) : String := Text.alignLeft 11 name ++ ": " ++ value
  [field "Units" (toString a.units.length), field "States" (toString a.states.length),
    field "Transitions" (toString a.transitions.length),
    field "In-Symbols" (toString a.inputSymbols.rowCount),
    field "Out-Symbols" (toString a.outputSymbols.rowCount),
    field "Acceptor" (yesNo (a.kind.contains .acceptor)),
    field "Transducer" (yesNo (a.kind.contains .transducer)),
    field "Weights" ((a.schema.semiring.map (·.name)).getD "none")]

/-- The report on an automaton. -/
def write (a : Automaton) (listing : Bool) : Except Fault String := do
  let units ← a.units.zipIdx.mapM fun (row, unit) => unitLines a listing unit row
  return ofLines (tableLines a ++ units.flatten)

end Report

namespace Automaton

/-- Table sizes, kind and the properties of each unit. -/
def summary (a : Automaton) : Except Fault String := Report.write a false

/-- The summary, with the transitions of each unit. -/
def listing (a : Automaton) : Except Fault String := Report.write a true

end Automaton

end WeightedAutomata
