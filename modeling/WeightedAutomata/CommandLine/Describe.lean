-- The program that compiles a pattern and reports on its automaton, or on the expansion
-- of it.
import WeightedAutomata.CommandLine.Options
import WeightedAutomata.Expansion
import WeightedAutomata.Message
import WeightedAutomata.Pattern.Compile
import WeightedAutomata.Report

namespace WeightedAutomata

namespace CommandLine

namespace Describe

def help : String :=
  "wfst-regex: Compile a regular expression and describe the automaton.\n" ++
  "\n" ++
  "Usage: wfst-regex [OPTIONS] PATTERN\n" ++
  "\n" ++
  "Options:\n" ++
  "  -t, --transitions   Also list every transition\n" ++
  "  --hmm               Describe the HMM expansion of the automaton instead\n" ++
  "  -h, --help          Print this help\n"

/-- The automaton to report on. -/
def automaton (expanded : Bool) (pattern : String) : Except Halt Automaton :=
  match Automaton.ofPattern pattern with
  | .error error => .error (.refused (.pattern error))
  | .ok acceptor => if expanded then acceptor.expand none else .ok acceptor

/-- The report on a pattern. -/
def describe (listing expanded : Bool) (pattern : String) : Except Halt String := do
  let a ← automaton expanded pattern
  match if listing then a.listing else a.summary with
  | .ok text => return text
  | .error fault => throw (.broken fault)

/-- The whole program, from its arguments. -/
def run (arguments : List String) : Result :=
  if wantsHelp arguments then { stdout := help }
  else
    let (listing, arguments) := takeFlag ["-t", "--transitions"] arguments
    let (expanded, arguments) := takeFlag ["--hmm"] arguments
    match arguments with
    | [] => .failed "missing PATTERN (see --help)"
    | [pattern] =>
      match describe listing expanded pattern with
      | .ok stdout => { stdout }
      | .error (.refused error) => .failed error.message
      | .error (.broken fault) => .failed (fault.message?.getD "")
    | _ => .failed "expected exactly one PATTERN (see --help)"

end Describe

end CommandLine

end WeightedAutomata
