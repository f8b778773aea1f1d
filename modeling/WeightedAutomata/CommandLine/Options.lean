-- Options of the command line, recognised wherever they stand among the arguments. An
-- option with a value takes the next argument whatever it looks like.
import WeightedAutomata.Search.Basic
import WeightedAutomata.Text.Quoted

namespace WeightedAutomata

namespace CommandLine

/-! ## Numbers -/

/-- Why a text is no 64-bit number. -/
inductive NumberError where
  | empty
  | invalidDigit
  | tooLarge
  deriving DecidableEq

def NumberError.message : NumberError → String
  | empty => "cannot parse integer from empty string"
  | invalidDigit => "invalid digit found in string"
  | tooLarge => "number too large to fit in target type"

/-- The number that decimal digits spell behind those read already. The first character
that is no digit, or that makes the number too large, decides the error. -/
def readDigits (value : Nat) : List Char → Except NumberError Nat
  | [] => .ok value
  | c :: cs =>
    if c.isDigit then
      let value := 10 * value + (c.toNat - '0'.toNat)
      if value < UInt64.size then readDigits value cs else .error .tooLarge
    else .error .invalidDigit

/-- The number that a text spells: digits, with a plus in front or without. -/
def readNumber (text : String) : Except NumberError Nat :=
  match text.toList with
  | [] => .error .empty
  | '+' :: c :: cs => readDigits 0 (c :: cs)
  | cs => readDigits 0 cs

/-! ## Options -/

/-- Why options cannot be read. -/
inductive OptionError where
  | missingValue (name : String)
  | invalidDepth (value : String) (error : NumberError)
  deriving DecidableEq

def OptionError.message : OptionError → String
  | missingValue name => name ++ " requires a value"
  | invalidDepth value error =>
    "invalid --max-depth " ++ Text.quoted value ++ ": " ++ error.message

/-- What stands behind `name=` in an argument. -/
def attachedValue? (name argument : String) : Option String :=
  let start := (name ++ "=").toList
  if start.isPrefixOf argument.toList then
    some (String.ofList (argument.toList.drop start.length))
  else none

/-- Takes an option with a value out of the arguments, by its long name or its short one.
The value stands behind an equals sign or is the next argument, and the last one counts. -/
def takeOption (long : String) (short : Option String) :
    List String → Except OptionError (Option String × List String)
  | [] => .ok (none, [])
  | argument :: rest =>
    match attachedValue? long argument with
    | some value => do
      let (later, rest) ← takeOption long short rest
      return (later <|> some value, rest)
    | none =>
      if argument = long ∨ short = some argument then
        match rest with
        | [] => .error (.missingValue argument)
        | value :: rest => do
          let (later, rest) ← takeOption long short rest
          return (later <|> some value, rest)
      else do
        let (value, rest) ← takeOption long short rest
        return (value, argument :: rest)

/-- Takes a flag out of the arguments, by any of its names. -/
def takeFlag (names arguments : List String) : Bool × List String :=
  (arguments.any names.contains, arguments.filter (!names.contains ·))

/-- Takes the options of the search out of the arguments. -/
def takeConfig (arguments : List String) : Except OptionError (Search.Config × List String) := do
  let (depth, rest) ← takeOption "--max-depth" none arguments
  let (plain, rest) := takeFlag ["--no-memo"] rest
  let config : Search.Config := { memoize := !plain }
  match depth with
  | none => return (config, rest)
  | some text =>
    match readNumber text with
    | .ok maxDepth => return ({ config with maxDepth }, rest)
    | .error error => throw (.invalidDepth text error)

/-- Whether help is asked for. -/
def wantsHelp (arguments : List String) : Bool :=
  arguments.any fun argument => argument == "--help" || argument == "-h"

/-! ## What a program leaves -/

/-- The exit code of a program and what it wrote. -/
structure Result where
  exit : Nat := 0
  stdout : String := ""
  stderr : String := ""
  deriving DecidableEq

/-- A program that ends with a message. -/
def Result.failed (message : String) : Result := ⟨1, "", "error: " ++ message ++ "\n"⟩

end CommandLine

end WeightedAutomata
