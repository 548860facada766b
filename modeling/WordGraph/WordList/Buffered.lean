import WordGraph.WordList

/-!
# Reading line by line

A word list need not be split into lines before it is read: the lines can be read one after the other
into one buffer, which takes the text of a line and is emptied behind it. Reading ends with the first
line of no bytes.

* `splitLine`, `readLine` — the first line of some bytes, and reading it
* `readBuffered` — reading a word list with one buffer
-/

namespace WordGraph.WordList

/-- Splits bytes behind the first line. -/
def splitLine : Bytes → Bytes × Bytes
  | [] => ([], [])
  | b :: bs =>
    if b = lineFeed then ([b], bs)
    else
      let (line, rest) := splitLine bs
      (b :: line, rest)

/-- Reads a line. The answer is the number of bytes read, the buffer with the text of the line behind what
it held, and the bytes that are left. -/
def readLine (buffer : List Char) (bs : Bytes) : Except ReadError (Nat × List Char × Bytes) :=
  let (line, rest) := splitLine bs
  match text? line with
  | none => .error .notText
  | some text => .ok (line.length, buffer ++ text, rest)

theorem append_splitLine (bs : Bytes) : (splitLine bs).1 ++ (splitLine bs).2 = bs := by
  fun_induction splitLine bs with
  | case1 => rfl
  | case2 => rfl
  | case3 b bs _ line rest hline ih =>
    rw [hline] at ih
    exact congrArg (b :: ·) ih

/-- What is read is no longer left. -/
theorem length_of_readLine {buffer buffer' : List Char} {bs rest : Bytes} {n : Nat}
    (h : readLine buffer bs = .ok (n, buffer', rest)) : bs.length = n + rest.length := by
  unfold readLine at h
  dsimp only at h
  split at h
  · cases h
  · cases h
    rw [← List.length_append, append_splitLine]

/-- Reads lines into a buffer and adds their words to a lexicon, up to the first line that cannot be read
or is refused. -/
def readLoop (l : Lexicon Char) (buffer : List Char) (bs : Bytes) :
    Except ReadError (Lexicon Char) :=
  match _h : readLine buffer bs with
  | .error e => .error e
  | .ok (n, buffer, rest) =>
    if n = 0 then .ok l
    else
      let word := Text.trimEnd buffer
      if word.isEmpty || isComment word then readLoop l [] rest
      else
        match (l.add word).result with
        | .error e => .error (.refused e)
        | .ok (_, l) => readLoop l [] rest
termination_by bs.length
decreasing_by all_goals
  have := length_of_readLine _h
  omega

/-- The closed lexicon of the words in a word list, read with one buffer. -/
def readBuffered (identity : Nat) (bs : Bytes) : Except ReadError (Lexicon Char) := do
  let l ← readLoop (.new identity) [] bs
  l.close.result.mapError .refused

end WordGraph.WordList
