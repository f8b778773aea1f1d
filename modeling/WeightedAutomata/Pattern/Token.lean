-- The tokens of a pattern. A backslash takes the next character with it, a bracket takes
-- everything up to the end of its class, and every other character is a token of its own.
import WeightedAutomata.Error
import WeightedAutomata.Pattern.Syntax

namespace WeightedAutomata

namespace Pattern

/-- A token. What parentheses and quantifiers mean depends on the tokens before them. -/
inductive Token where
  | opening
  | closing
  | quantifier (q : Quantifier)
  | atom (a : Atom)
  deriving DecidableEq

/-- A token with the position of its first character. -/
structure Placed where
  position : Nat
  token : Token
  deriving DecidableEq

/-! ## Classes -/

/-- The element that begins with the plain character `c`, and how many of the characters
behind it belong to it. A minus makes a range unless the class ends behind it. -/
def plainElement (c : Char) : List Char → ClassItem × Nat
  | '-' :: last :: _ => if last = ']' then (.one c, 0) else (.range c last, 2)
  | _ => (.one c, 0)

/-- The element that begins with the character `c`, and how many of the characters behind
it belong to it. A backslash makes the next character plain. -/
def element? (c : Char) (rest : List Char) : Option (ClassItem × Nat) :=
  if c = '\\' then
    match rest with
    | [] => none
    | plain :: rest =>
      let (item, read) := plainElement plain rest
      some (item, read + 1)
  else some (plainElement c rest)

/-- The elements up to the closing bracket, and how many characters they take with it. -/
def elements? : List Char → Option (List ClassItem × Nat)
  | [] => none
  | c :: rest =>
    if c = ']' then some ([], 1)
    else
      match element? c rest with
      | none => none
      | some (item, read) =>
        match elements? (rest.drop read) with
        | none => none
        | some (items, more) => some (item :: items, 1 + read + more)
termination_by cs => cs.length
decreasing_by simp only [List.length_drop, List.length_cons]; omega

/-- The class that begins behind an opening bracket, and how many characters it takes. -/
def class? : List Char → Option (CharClass × Nat)
  | '^' :: rest => (elements? rest).map fun (items, read) => (⟨true, items⟩, read + 1)
  | rest => (elements? rest).map fun (items, read) => (⟨false, items⟩, read)

/-! ## Tokens -/

/-- What a character stands for behind a backslash. -/
def escaped (c : Char) : Atom :=
  match shorthand? c with
  | some members => .oneOf members
  | none => .char c

/-- The token that begins with `c` at a position, and how many of the characters behind it
belong to it. -/
def token (position : Nat) (c : Char) (rest : List Char) : Except PatternError (Token × Nat) :=
  match c with
  | '(' => .ok (.opening, 0)
  | ')' => .ok (.closing, 0)
  | '*' => .ok (.quantifier .star, 0)
  | '+' => .ok (.quantifier .plus, 0)
  | '?' => .ok (.quantifier .optional, 0)
  | '.' => .ok (.atom .any, 0)
  | '^' => .ok (.atom .textStart, 0)
  | '$' => .ok (.atom .textEnd, 0)
  | '[' =>
    match class? rest with
    | some (members, read) => .ok (.atom (.oneOf members), read)
    | none => .error (.unmatchedBracket position)
  | '\\' =>
    match rest with
    | next :: _ => .ok (.atom (escaped next), 1)
    | [] => .error (.trailingEscape position)
  | _ => .ok (.atom (.char c), 0)

/-- The tokens of a pattern from a position on, or the first token that does not end. -/
def tokens (position : Nat) : List Char → Except PatternError (List Placed)
  | [] => .ok []
  | c :: rest =>
    match token position c rest with
    | .error error => .error error
    | .ok (t, read) =>
      match tokens (position + 1 + read) (rest.drop read) with
      | .error error => .error error
      | .ok later => .ok (⟨position, t⟩ :: later)
termination_by cs => cs.length
decreasing_by simp only [List.length_drop, List.length_cons]; omega

end Pattern

end WeightedAutomata
