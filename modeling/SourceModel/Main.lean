import SourceModel.CommandLine.Run
import SourceModel.FileSystem.Image
/-!
# The program

Takes the workspace as an image on the standard input, runs the command line on
it and writes what the run leaves behind.
-/

/-- Reads all lines of the standard input. -/
def readLines : IO (List String) := do
  let input ← IO.getStdin
  let mut lines : Array String := #[]
  repeat
    let line ← input.getLine
    if line.isEmpty then break
    lines := lines.push (if line.endsWith "\n" then (line.dropEnd 1).toString else line)
  return lines.toList

def main (args : List String) : IO UInt32 := do
  match SourceModel.FileSystem.ofImage? (← readLines) with
  | none =>
    IO.eprintln "malformed workspace image"
    return 2
  | some fs =>
    let outcome := SourceModel.CommandLine.run {} fs args
    outcome.output.forM IO.println
    outcome.errors.forM IO.eprintln
    return outcome.code.toUInt32
