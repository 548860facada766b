import WordGraph.Symbol
import WordGraph.Text.Unprintable

/-!
# Characters in messages

Messages show a character between single quotes. Six characters have an escape of two symbols: the
null character, tab, carriage return, line feed, the single quote and the backslash. The double
quote stands for itself. Of the rest, a character that cannot be seen or that would attach to the
opening quote is shown by its code point in hexadecimal.

With that text, characters are symbols.
-/

namespace WordGraph.Text

/-- A natural number in lower-case hexadecimal, without leading zeros. -/
def hex (n : Nat) : String := String.ofList (Nat.toDigits 16 n)

/-- The escape that shows a character by its code point. -/
def codePointEscape (c : Char) : String := "\\u\x7b" ++ hex c.toNat ++ "\x7d"

/-- A character as it stands between single quotes. -/
def escapeChar (c : Char) : String :=
  match c with
  | '\x00' => "\\0"
  | '\t' => "\\t"
  | '\r' => "\\r"
  | '\n' => "\\n"
  | '\'' => "\\'"
  | '\\' => "\\\\"
  | _ =>
    -- most characters are found here, and need no table
    if 0x20 ≤ c.toNat && c.toNat < 0x7F then c.toString
    else if inRanges attaching c.toNat || inRanges unprintable c.toNat then codePointEscape c
    else c.toString

/-- A character in single quotes. -/
def charLiteral (c : Char) : String := "'" ++ escapeChar c ++ "'"

end WordGraph.Text

namespace WordGraph

instance : Symbol Char where
  hash c := hash c.val
  decEq := inferInstance
  decLT := inferInstance
  lt_irrefl := Char.lt_irrefl
  lt_trans := Char.lt_trans
  lt_trichotomy a b := by
    rcases Symbol.lt_trichotomy a.val b.val with h | h | h
    · exact .inl h
    · exact .inr (.inl (Char.ext h))
    · exact .inr (.inr h)
  text := Text.charLiteral

end WordGraph
