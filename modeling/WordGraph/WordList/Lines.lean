import WordGraph.Dump.Bytes
import WordGraph.Text.WhiteSpace

/-!
# Lines

A line of bytes goes on up to a line feed, which belongs to it. The last line may lack one, but it
is not empty. A line is a text if its bytes are valid UTF-8.
-/

namespace WordGraph.WordList

/-- The byte that ends a line. -/
def lineFeed : UInt8 := 0x0A

/-- The lines of some bytes, behind the reversed list `done` and the reversed beginning `line` of
the next one. -/
def linesFrom (done : List Bytes) (line : Bytes) : Bytes → List Bytes
  | [] => if line.isEmpty then done.reverse else (line.reverse :: done).reverse
  | b :: bs =>
    if b = lineFeed then linesFrom ((b :: line).reverse :: done) [] bs
    else linesFrom done (b :: line) bs

/-- The lines of some bytes. -/
def lines (bs : Bytes) : List Bytes := linesFrom [] [] bs

theorem flatten_linesFrom (done : List Bytes) (line bs : Bytes) :
    (linesFrom done line bs).flatten = done.reverse.flatten ++ line.reverse ++ bs := by
  fun_induction linesFrom done line bs with
  | case1 done line h => simp [List.isEmpty_iff.1 h]
  | case2 done line h => simp
  | case3 done line bs ih => rw [ih]; simp
  | case4 done line b bs h ih => rw [ih]; simp

/-- Splitting into lines loses nothing. -/
theorem flatten_lines (bs : Bytes) : (lines bs).flatten = bs := by
  simp [lines, flatten_linesFrom]

/-- The text of a line, if it is one. -/
def text? (line : Bytes) : Option (List Char) :=
  (String.fromUTF8? ⟨line.toArray⟩).map String.toList

/-- Whether a line is a comment: the first character that is not white space is `#`. -/
def isComment (line : List Char) : Bool := (Text.trimStart line).head? == some '#'

/-- The word on a line, if there is one: what is left without the white space at its end, unless
that is nothing or a comment. -/
def word? (line : List Char) : Option (Word Char) :=
  let word := Text.trimEnd line
  if word.isEmpty || isComment word then none else some word

end WordGraph.WordList
