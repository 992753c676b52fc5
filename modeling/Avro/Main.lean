/-
# Main: the command

Reads the files, runs the command on what they hold, prints and ends.
-/
import Avro.CommandLine

namespace Avro

def usage : String :=
  "usage: --schema FILE [--datum FILE] [--max-depth N] [--quiet]\n"

/-- What a file holds, or why it cannot be read. -/
def readText (path : String) : IO (Except String String) := do
  try
    return .ok (← IO.FS.readFile path)
  catch e =>
    return .error (toString e)

end Avro

def main (arguments : List String) : IO UInt32 := do
  match Avro.Arguments.ofList? arguments with
  | none =>
    (← IO.getStderr).putStr Avro.usage
    return 2
  | some a =>
    let files ← (a.schema :: a.datum.toList).mapM fun path => do
      return (path, ← Avro.readText path)
    let outcome := Avro.run (fun path => (files.lookup path).getD (.error "not read")) a
    (← IO.getStdout).putStr outcome.stdout
    (← IO.getStderr).putStr outcome.stderr
    return .ofNat outcome.status
