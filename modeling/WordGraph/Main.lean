import WordGraph.Command.Request
import WordGraph.Command.Tour

/-!
# The command line

Reads the word list that a request is about, runs the request, and writes its outcome.
-/

namespace WordGraph.Command

/-- Reads a stream to its end. -/
partial def readToEnd (stream : IO.FS.Stream) (done : ByteArray) : IO ByteArray := do
  let bytes ← stream.read 65536
  if bytes.isEmpty then return done else readToEnd stream (done ++ bytes)

/-- The bytes of a file, or of standard input. -/
def readInput (file? : Option String) : IO ByteArray :=
  match file? with
  | some file => IO.FS.readBinFile file
  | none => do readToEnd (← IO.getStdin) .empty

/-- Writes an outcome and answers its exit code. -/
def writeOutcome (outcome : Outcome) : IO UInt32 := do
  (← IO.getStderr).putStr outcome.stderr
  (← IO.getStdout).putStr outcome.stdout
  return UInt32.ofNat outcome.code

end WordGraph.Command

open WordGraph.Command

/-- Runs what the arguments ask for. -/
def main (arguments : List String) : IO UInt32 := do
  match Request.ofArguments? arguments with
  | some .tour => writeOutcome Tour.run
  | some (.draw options file?) =>
    writeOutcome (Draw.run options (← readInput file?).toList)
  | none =>
    (← IO.getStderr).putStrLn "usage: draw [--name NAME] [--stats] [FILE] | tour"
    return 2
