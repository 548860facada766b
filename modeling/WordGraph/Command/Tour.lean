import WordGraph.Command
import WordGraph.Lexicon.Query

/-!
# The command that shows a lexicon at work

It builds a lexicon of seven words and shows a few questions to it with their answers: which words
it holds, which prefixes, what fits a pattern, which numbers words have, and how big it is.
-/

namespace WordGraph.Command.Tour

/-- The words of the lexicon. -/
def words : List String := ["BAKE", "BAKED", "BAKER", "CAKE", "CAKED", "FAKE", "LAKE"]

/-- An answer to a yes-or-no question. -/
def yesNo (b : Bool) : String := if b then "yes" else "no"

/-- A list of words, each in double quotes. -/
def quotedWords (ws : List (Word Char)) : String :=
  "[" ++ String.intercalate ", " (ws.map fun w => "\"" ++ String.ofList w ++ "\"") ++ "]"

/-- A number that may be missing. -/
def numberText : Option Nat → String
  | some n => "Some(" ++ toString n ++ ")"
  | none => "None"

/-- One question and its answer on a line. -/
def line (question answer : String) : String := "  " ++ question ++ ": " ++ answer ++ "\n"

/-- Asks the questions of one kind, and shows each with a mark behind it. -/
def ask {σ : Type} (mark : String) (questions : List String) (answer : String → Run σ String) :
    Run σ String :=
  String.join <$> questions.mapM fun q => line (q ++ mark) <$> answer q

/-- The words that fit a pattern in which a dot stands for any letter. -/
def solve (l : Lexicon Char) (pattern : String) : Except Fault (List (Word Char)) :=
  (l.find (.ofWord (.ofString pattern) '.' .exact)).words l.arena

/-- The questions to the lexicon and the answers. -/
def report : Run Char String := do
  let l ← Lexicon.ofWords 0 (words.map Word.ofString)
  let lookups ← ask "" ["BAKE", "BAKER", "BAKES", "CAKE", "LAKE", "MAKE"] fun w =>
    return yesNo (← l.contains (.ofString w))
  let prefixes ← ask "*" ["BA", "CAK", "MA", "FAK"] fun w =>
    return yesNo (← l.hasPrefix (.ofString w))
  let patterns ← ask "" [".AKE", "BAKE.", "...ED"] fun p => return quotedWords (← solve l p)
  let numbers ← ask "" ["BAKE", "CAKE", "LAKE"] fun w =>
    return numberText (← l.rank (.ofString w)).1
  let all ← l.words
  let size ← l.statistics
  return "Word lookup:\n" ++ lookups ++ "\nPrefix checking:\n" ++ prefixes ++
    "\nPattern search:\n" ++ patterns ++ "\nWord numbers:\n" ++ numbers ++
    "\nAll words: " ++ quotedWords all ++ "\n\n" ++ toString size.words ++ " words in " ++
    toString size.nodes ++ " states and " ++ toString size.edges ++ " edges\n"

/-- Runs the command. -/
def run : Outcome :=
  match report.result with
  | .ok text => .success text ""
  | .error e => .failure e.message

end WordGraph.Command.Tour
