-- Reading a pattern. One pass over the tokens keeps the items of the open groups. A
-- quantifier belongs to the item right before it, and stands for its own character where
-- there is none. So does a closing parenthesis outside of all groups.
import WeightedAutomata.Pattern.Token

namespace WeightedAutomata

namespace Pattern

/-- A group that is still open: where it opened, and the items before it, last first. -/
structure OpenGroup where
  position : Nat
  before : List Expr

/-- The state of reading: the open groups from the inside out, the items of the innermost
one with the last first, and whether the last item can still take a quantifier. -/
structure Reading where
  groups : List OpenGroup := []
  items : List Expr := []
  quantifiable : Bool := false

namespace Reading

/-- Adds an item that can take a quantifier. -/
def add (r : Reading) (e : Expr) : Reading := { r with items := e :: r.items, quantifiable := true }

/-- Takes in one token. -/
def read (r : Reading) (placed : Placed) : Reading :=
  match placed.token with
  | .atom a => r.add (.atom a)
  | .opening => { groups := ⟨placed.position, r.items⟩ :: r.groups }
  | .closing =>
    match r.groups with
    | [] => r.add (.atom (.char ')'))
    | group :: groups =>
      ({ r with groups, items := group.before } : Reading).add (Expr.ofReversed r.items)
  | .quantifier q =>
    match r.quantifiable, r.items with
    | true, e :: before => { r with items := .quantified q e :: before, quantifiable := false }
    | _, _ => r.add (.atom (.char q.char))

/-- The expression that was read, unless a group is still open. -/
def finish (r : Reading) : Except PatternError Expr :=
  match r.groups with
  | [] => .ok (Expr.ofReversed r.items)
  | group :: _ => .error (.unmatchedParen group.position)

end Reading

/-- The expression of a pattern. A token that does not end is reported before a group that
is left open. -/
def parse (pattern : List Char) : Except PatternError Expr :=
  match tokens 0 pattern with
  | .error error => .error error
  | .ok placed => (placed.foldl Reading.read {}).finish

end Pattern

end WeightedAutomata
