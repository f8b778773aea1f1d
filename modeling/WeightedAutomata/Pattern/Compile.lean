-- From expressions to automata. Each part of an expression is drawn from an entry state
-- to an exit state. Parts share these states, and quantifiers add arcs without reading
-- between them.
import WeightedAutomata.Automaton.Edit
import WeightedAutomata.Pattern.Parser

namespace WeightedAutomata

namespace Pattern

/-! ## Drafts -/

/-- A machine in the making: how many states it has, and its arcs in order. -/
structure Draft where
  stateCount : Nat
  arcs : Array Transition

namespace Draft

/-- A start state and no arcs. -/
def start : Draft := ⟨1, #[]⟩

/-- Adds a state, and tells its number. -/
def state (d : Draft) : Nat × Draft := (d.stateCount, { d with stateCount := d.stateCount + 1 })

/-- Adds an arc between two states. -/
def arc (d : Draft) (source target : Nat) (label : Label) : Draft :=
  { d with arcs := d.arcs.push { source, target, input := some label } }

/-- Adds a state with an arc to it, and tells the number of the state. -/
def branch (d : Draft) (source : Nat) (label : Label) : Nat × Draft :=
  let (target, d) := d.state
  (target, d.arc source target label)

/-- Adds an arc for each code point, in order. -/
def fan (d : Draft) (source target : Nat) (codes : List Nat) : Draft :=
  codes.foldl (fun d code => d.arc source target (.symbol code)) d

end Draft

/-! ## Drawing -/

/-- Draws a class from an entry state, and tells its exit state. All code points lead to
the exit. Those of a negated class leave from a marker state behind the entry. -/
def CharClass.draw (members : CharClass) (entry : Nat) (d : Draft) : Nat × Draft :=
  let (exit, d) := d.state
  if members.negated then
    let (marker, d) := d.branch entry .notInSet
    (exit, d.fan marker exit members.codes)
  else (exit, d.fan entry exit members.codes)

/-- Draws an atom from an entry state, and tells its exit state. -/
def Atom.draw (entry : Nat) (d : Draft) : Atom → Nat × Draft
  | .char c => d.branch entry (.ofChar c)
  | .any => d.branch entry .anyChar
  | .oneOf members => members.draw entry d
  | .textStart => d.branch entry .startAnchor
  | .textEnd => d.branch entry .endAnchor

/-- Adds the arcs of a quantifier to what was drawn between two states, and tells the new
exit state. A repetition goes back from exit to entry. What may be left out has a way
around it. -/
def Quantifier.draw (entry exit : Nat) (d : Draft) : Quantifier → Nat × Draft
  | .star => (d.arc exit entry .epsilon).branch entry .epsilon
  | .plus => (exit, d.arc exit entry .epsilon)
  | .optional =>
    let (after, d) := d.branch exit .epsilon
    (after, d.arc entry after .epsilon)

/-- Draws an expression from an entry state, and tells its exit state. -/
def Expr.draw (entry : Nat) (d : Draft) : Expr → Nat × Draft
  | .empty => (entry, d)
  | .atom a => a.draw entry d
  | .seq first rest =>
    let (middle, d) := first.draw entry d
    rest.draw middle d
  | .quantified q e =>
    let (exit, d) := e.draw entry d
    q.draw entry exit d

/-- The machine of an expression. The exit of the whole is its only final state. -/
def Expr.machine (e : Expr) (name : String) : Machine :=
  let (last, d) := e.draw 0 Draft.start
  { name
    flags := (List.replicate d.stateCount (Flags.ofFinal false)).set last (Flags.ofFinal true)
    transitions := d.arcs.toList }

end Pattern

/-! ## Patterns as automata -/

namespace Automaton

/-- The acceptor of a pattern, whose one unit is named for it. -/
def ofPattern (pattern : String) : Except PatternError Automaton :=
  match Pattern.parse pattern.toList with
  | .error error => .error error
  | .ok e => .ok (ofMachines .acceptor [e.machine ("Regex: " ++ pattern)])

/-- Replaces whatever there was by the acceptor of a pattern, or by an acceptor without
units where the text is no pattern. -/
def compilePattern (_ : Automaton) (pattern : String) : Outcome Unit :=
  match ofPattern pattern with
  | .ok acceptor => .done () acceptor
  | .error error => .refused (.pattern error) (empty .acceptor)

end Automaton

end WeightedAutomata
