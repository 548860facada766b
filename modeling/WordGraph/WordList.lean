import WordGraph.Lexicon
import WordGraph.WordList.Lines

/-!
# Word lists

A word list is a text with one word on each line, in order. White space at the end of a line does
not count; empty lines and comments are left out.
-/

namespace WordGraph.WordList

/-- Why a word list is not read. -/
inductive ReadError where
  /-- A line is not a text. -/
  | notText
  /-- A word is refused. -/
  | refused (e : Error Char)
  deriving DecidableEq, Repr

/-- Adds the words on some lines to a lexicon, up to the first line that cannot be read or is
refused. -/
def addLines (l : Lexicon Char) : List Bytes → Except ReadError (Lexicon Char)
  | [] => .ok l
  | line :: lines =>
    match text? line with
    | none => .error .notText
    | some text =>
      match word? text with
      | none => addLines l lines
      | some w =>
        match (l.add w).result with
        | .error e => .error (.refused e)
        | .ok (_, l) => addLines l lines

/-- The closed lexicon of the words in a word list. -/
def read (identity : Nat) (bs : Bytes) : Except ReadError (Lexicon Char) := do
  let l ← addLines (.new identity) (lines bs)
  l.close.result.mapError .refused

end WordGraph.WordList
