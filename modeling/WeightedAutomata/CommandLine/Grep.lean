-- The program that looks for a pattern in texts, and reports for each text in order. The
-- texts are arguments, or the lines of standard input when there are none.
import WeightedAutomata.CommandLine.Options
import WeightedAutomata.Message
import WeightedAutomata.Pattern.Compile
import WeightedAutomata.Search.Find
import WeightedAutomata.Text.Lines

namespace WeightedAutomata

namespace CommandLine

namespace Grep

def help : String :=
  "wfst-grep: Match a regular expression against lines of text.\n" ++
  "\n" ++
  "Usage: wfst-grep [OPTIONS] PATTERN [TEXT...]\n" ++
  "\n" ++
  "Reads texts from stdin when none are given. Prints per text:\n" ++
  "  START LEN    leftmost-longest match (character offsets)\n" ++
  "  -            no match\n" ++
  "\n" ++
  "Options:\n" ++
  "  -l, --lines          Print matching lines instead of offsets\n" ++
  "  -o, --only-matching  Print only the matched part of each line\n" ++
  "  --max-depth N        Search stack limit of the matcher\n" ++
  "  --no-memo            Disable the matcher's result cache\n" ++
  "  -h, --help           Print this help\n"

/-- What is printed for a text that matches. -/
inductive Style where
  | offsets
  | line
  | part
  deriving DecidableEq

/-- The report on one text. A text that does not match is reported with offsets only. -/
def report (style : Style) (text : String) : Option Match → String
  | some m =>
    match style with
    | .offsets => toString m.start ++ " " ++ toString m.length ++ "\n"
    | .line => text ++ "\n"
    | .part => m.slice text ++ "\n"
  | none => if style = .offsets then "-\n" else ""

/-- The reports on texts in order, and whether one of them matched. The first search that
fails ends it. -/
def reports (style : Style) (find : String → Except Halt (Option Match)) :
    List String → Except Halt (String × Bool)
  | [] => .ok ("", false)
  | text :: texts => do
    let found ← find text
    let (later, matched) ← reports style find texts
    return (report style text found ++ later, found.isSome || matched)

/-- The message of a search that did not end well. -/
def haltMessage : Halt → String
  | .refused error => error.message
  | .broken fault => fault.message?.getD ""

/-- The outcome for texts, and for a stream of them that an unreadable line ended. -/
def outcome (style : Style) (find : String → Except Halt (Option Match)) (texts : List String)
    (spoilt : Bool) : Result :=
  match reports style find texts with
  | .error halt => .failed (haltMessage halt)
  | .ok (stdout, matched) =>
    { exit := if matched then 0 else 1
      stdout
      stderr := if spoilt then "error reading stdin: stream did not contain valid UTF-8\n" else "" }

/-- What the arguments ask for. -/
structure Job where
  config : Search.Config
  style : Style
  pattern : String

/-- Searches texts, or a stream of them, for the pattern of a job. -/
def Job.run (job : Job) (texts : List String) (spoilt : Bool) : Result :=
  match Automaton.ofPattern job.pattern with
  | .error error => .failed (Error.pattern error).message
  | .ok acceptor => outcome job.style (acceptor.find · job.config) texts spoilt

/-- The job and the texts that the arguments name, or what is left when there is no job. -/
def command (arguments : List String) : Except Result (Job × List String) :=
  if wantsHelp arguments then .error { stdout := help }
  else
    match takeConfig arguments with
    | .error error => .error (.failed error.message)
    | .ok (config, arguments) =>
      let (printLines, arguments) := takeFlag ["-l", "--lines"] arguments
      let (onlyMatching, arguments) := takeFlag ["-o", "--only-matching"] arguments
      let style := if onlyMatching then .part else if printLines then .line else .offsets
      match arguments with
      | [] => .error (.failed "missing PATTERN (see --help)")
      | pattern :: texts => .ok (⟨config, style, pattern⟩, texts)

/-- The whole program, from its arguments and standard input. Without texts among the
arguments the lines of standard input are searched. -/
def run (arguments : List String) (stdin : List UInt8) : Result :=
  match command arguments with
  | .error result => result
  | .ok (job, []) =>
    let (texts, spoilt) := Text.lines stdin
    job.run texts spoilt
  | .ok (job, texts) => job.run texts false

end Grep

end CommandLine

end WeightedAutomata
