-- Patterns as data: character classes, atoms, and expressions built from them by
-- sequencing and by the three quantifiers. There is no alternation.
namespace WeightedAutomata

namespace Pattern

/-! ## Character classes -/

/-- An element of a class: a character, or the characters between two, whichever of them
comes first. -/
inductive ClassItem where
  | one (c : Char)
  | range (first last : Char)
  deriving DecidableEq

/-- The numbers from `start` towards `stop`, `stop` excluded. -/
def walk (start stop : Nat) : List Nat :=
  if stop ≤ start then (List.range (start - stop)).map (start - ·)
  else (List.range (stop - start)).map (start + ·)

/-- The code points that an element lists, each of them once: of a range the first end,
then the others from the far end back. -/
def ClassItem.codes : ClassItem → List Nat
  | one c => [c.toNat]
  | range first last => first.toNat :: walk last.toNat first.toNat

/-- A class of characters: those listed, or those not listed. -/
structure CharClass where
  negated : Bool
  items : List ClassItem
  deriving DecidableEq

/-- The code points that a class lists, with repetitions. -/
def CharClass.codes (members : CharClass) : List Nat := members.items.flatMap (·.codes)

/-- The elements that a lower case letter stands for behind a backslash. -/
def shorthandItems? : Char → Option (List ClassItem)
  | 'd' => some [.range '0' '9']
  | 'x' => some [.range '0' '9', .range 'A' 'F', .range 'a' 'f']
  | 'o' => some [.range '0' '7']
  | 'w' => some [.range '0' '9', .range 'A' 'Z', .range 'a' 'z', .one '_']
  | 'h' => some [.range '0' '9', .range 'A' 'Z', .range 'a' 'z']
  | 'a' => some [.range 'A' 'Z', .range 'a' 'z']
  | 'l' => some [.range 'a' 'z']
  | 'u' => some [.range 'A' 'Z']
  | _ => none

/-- The class that a letter stands for behind a backslash. The upper case letter negates
the class of the lower case one. -/
def shorthand? (c : Char) : Option CharClass :=
  if c.isUpper then (shorthandItems? c.toLower).map (⟨true, ·⟩)
  else (shorthandItems? c).map (⟨false, ·⟩)

/-! ## Expressions -/

/-- What reads at most one character. The two anchors read none. -/
inductive Atom where
  | char (c : Char)
  | any
  | oneOf (members : CharClass)
  | textStart
  | textEnd
  deriving DecidableEq

/-- The three quantifiers: any number of times, at least once, at most once. -/
inductive Quantifier where
  | star
  | plus
  | optional
  deriving DecidableEq

/-- The character that writes a quantifier. -/
def Quantifier.char : Quantifier → Char
  | star => '*'
  | plus => '+'
  | optional => '?'

/-- A pattern. A group is the expression inside it. -/
inductive Expr where
  | empty
  | atom (a : Atom)
  | seq (first rest : Expr)
  | quantified (quantifier : Quantifier) (e : Expr)
  deriving DecidableEq

/-- The expressions of a list one after another, the last of them given first. -/
def Expr.ofReversed (items : List Expr) : Expr := items.foldl (fun rest e => .seq e rest) .empty

end Pattern

end WeightedAutomata
