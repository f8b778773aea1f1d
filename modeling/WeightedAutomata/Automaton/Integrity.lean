-- Integrity of packed tables. The tables are sound when they are the packing of the
-- units: each unit begins where the one before it ends, the counts use up the tables,
-- transitions stay within their unit and fit the schema. `violation?` gives the first
-- place where that fails.
import WeightedAutomata.Automaton.Basic

namespace WeightedAutomata

namespace Automaton

/-- The first end point that is no state of a unit with `count` states. Of one transition
the source is looked at before the target. -/
def strayEnd? (unit count : Nat) : Nat → List Transition → Option Violation
  | _, [] => none
  | row, t :: ts =>
    if count ≤ t.source then some (.stateOutOfRange unit row t.source count)
    else if count ≤ t.target then some (.stateOutOfRange unit row t.target count)
    else strayEnd? unit count (row + 1) ts

/-- The first violation from unit number `unit` on, when the units before it use up
`states` states and `transitions` transitions. The end points of a unit are looked at
when all its rows are in the table: otherwise a total is wrong. -/
def violationFrom? (a : Automaton) (unit states transitions : Nat) :
    List UnitRow → Option Violation
  | [] =>
    if states ≠ a.states.length then some (.stateTotal states a.states.length)
    else if transitions ≠ a.transitions.length then
      some (.transitionTotal transitions a.transitions.length)
    else (a.transitions.findIdx? (!a.schema.admits ·)).map .schema
  | row :: rows =>
    if row.firstState ≠ states then some (.stateOffset unit states row.firstState)
    else if row.firstTransition ≠ transitions then
      some (.transitionOffset unit transitions row.firstTransition)
    else
      let own := (rows? a.transitions row.firstTransition row.transitionCount).getD []
      match strayEnd? unit row.stateCount 0 own with
      | some violation => some violation
      | none =>
        a.violationFrom? (unit + 1) (states + row.stateCount)
          (transitions + row.transitionCount) rows

/-- The first violation of integrity, if there is one. -/
def violation? (a : Automaton) : Option Violation := a.violationFrom? 0 0 0 a.units

/-- Stops an operation that needs sound tables. -/
def check (a : Automaton) : Except Fault Unit :=
  match a.violation? with
  | none => .ok ()
  | some violation => .error (.integrity violation)

end Automaton

end WeightedAutomata
