-- The two programs as one executable. The first argument names the program, and the
-- others are its arguments.
import WeightedAutomata.CommandLine.Describe
import WeightedAutomata.CommandLine.Grep

namespace WeightedAutomata

namespace CommandLine

/-- Reads a stream to its end, behind the bytes read already. -/
partial def readAll (stream : IO.FS.Stream) (bytes : ByteArray) : IO ByteArray := do
  let more ← stream.read 65536
  if more.isEmpty then return bytes
  readAll stream (bytes ++ more)

/-- Writes what a program leaves. -/
def finish (result : Result) : IO UInt32 := do
  let stdout ← IO.getStdout
  let stderr ← IO.getStderr
  stdout.putStr result.stdout
  stdout.flush
  stderr.putStr result.stderr
  return UInt32.ofNat result.exit

end CommandLine

end WeightedAutomata

open WeightedAutomata CommandLine

/-- Runs one of the programs. Standard input is read only when it is searched. -/
def main : List String → IO UInt32
  | "wfst-grep" :: arguments => do
    let stdin ← match Grep.command arguments with
      | .ok (_, []) => readAll (← IO.getStdin) .empty
      | _ => pure .empty
    finish (Grep.run arguments stdin.toList)
  | "wfst-regex" :: arguments => finish (Describe.run arguments)
  | _ => finish (.failed "the first argument has to be wfst-grep or wfst-regex")
