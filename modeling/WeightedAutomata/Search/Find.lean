-- Finding a pattern in a text: the first position from which the automaton reaches a
-- final state, and the longest way to one from there. Positions count characters.
import WeightedAutomata.Automaton.Integrity
import WeightedAutomata.Search.Basic

namespace WeightedAutomata

/-! ## Matches -/

/-- A part of a text, by its first character and the number of its characters. -/
structure Match where
  start : Nat
  length : Nat
  deriving DecidableEq

namespace Match

/-- The position behind the last character. -/
def stop (m : Match) : Nat := m.start + m.length

/-- The characters of a text that a match covers. -/
def slice (m : Match) (text : String) : String :=
  String.ofList ((text.toList.drop m.start).take m.length)

end Match

/-! ## Finding -/

namespace Search

/-- The match of the first start position from which a final state is found. What one
search remembers serves the next. -/
def findFrom (s : Subject) (config : Config) (memo : Memo) :
    List Nat → Except Error (Option Match)
  | [] => .ok none
  | start :: starts =>
    match searchFrom s config memo ⟨0, start, start == 0⟩ with
    | .error error => .error error
    | .ok (⟨some furthest, _⟩, _) => .ok (some ⟨start, furthest - start⟩)
    | .ok (⟨none, _⟩, memo) => findFrom s config memo starts

/-- The leftmost longest match. Only positions with a character behind them are starts, so
that nothing is found in an empty text. -/
def find (s : Subject) (config : Config) : Except Error (Option Match) :=
  findFrom s config {} (List.range s.text.size)

end Search

namespace Automaton

/-- The search for unit 0 in a text. -/
def subject (a : Automaton) (text : String) : Except Fault Search.Subject := do
  let index ← TransitionIndex.ofUnit a 0 .outgoing
  let flags ← a.flagsOf 0
  return {
    outgoing := index.bundles.map fun bundle => bundle.map (·.2)
    flags := flags.toArray
    text := text.toList.toArray }

/-- The leftmost longest match of unit 0 in a text. -/
def find (a : Automaton) (text : String) (config : Search.Config := {}) :
    Except Halt (Option Match) :=
  match a.units with
  | [] => .error (.refused .noUnits)
  | row :: _ =>
    if row.stateCount = 0 then .error (.refused (.emptyUnit 0))
    else
      match a.check >>= fun _ => a.subject text with
      | .error fault => .error (.broken fault)
      | .ok s =>
        match Search.find s config with
        | .error error => .error (.refused error)
        | .ok found => .ok found

end Automaton

end WeightedAutomata
