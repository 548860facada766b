import WordGraph.Command
import WordGraph.Dot
import WordGraph.WordList

/-!
# The command that draws a word list

It reads a word list and writes a drawing of its lexicon in the DOT language. On demand it tells on
standard error how big the lexicon is. A word list that cannot be read is the only thing it reports.
-/

namespace WordGraph.Command.Draw

/-- What the command is asked for, beside the word list. -/
structure Options where
  /-- The name of the drawing. -/
  name : String
  /-- Whether to tell how big the lexicon is. -/
  statistics : Bool
  deriving DecidableEq, Repr

/-- The options that hold unless others are given. -/
def Options.standard : Options := ⟨"DAWG", false⟩

/-- How the command shows why a word list cannot be read. -/
def reason : WordList.ReadError → String
  | .notText =>
    "Error \x7b kind: InvalidData, message: \"stream did not contain valid UTF-8\" \x7d"
  | .refused (.outOfOrder previous current) =>
    "OrderingViolation \x7b previous: " ++ previous.text ++ ", current: " ++ current.text ++ " \x7d"
  | .refused e => e.message

/-- The drawing of a lexicon. -/
def draw (options : Options) (l : Lexicon Char) : Except Fault Outcome := do
  let size := Dot.statisticsLine (← l.statistics)
  return .success (Dot.render options.name (← l.snapshot)) (if options.statistics then size else "")

/-- Runs the command on the bytes of a word list. -/
def run (options : Options) (bs : Bytes) : Outcome :=
  match WordList.read 0 bs with
  | .error e => .failure (reason e)
  | .ok l =>
    match draw options l with
    | .error f => .failure f.message
    | .ok outcome => outcome

end WordGraph.Command.Draw
