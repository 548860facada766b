/-!
# White space

The characters with the Unicode property White_Space, and the trimming of a text at either end.
-/

namespace WordGraph.Text

/-- Whether a character has the Unicode property White_Space. -/
def isWhiteSpace (c : Char) : Bool :=
  let n := c.toNat
  (0x09 ≤ n && n ≤ 0x0D) || n == 0x20 || n == 0x85 || n == 0xA0 || n == 0x1680 ||
    (0x2000 ≤ n && n ≤ 0x200A) || n == 0x2028 || n == 0x2029 || n == 0x202F || n == 0x205F ||
    n == 0x3000

/-- A text without the white space that it starts with. -/
def trimStart (s : List Char) : List Char := s.dropWhile isWhiteSpace

/-- A text without the white space that it ends with. -/
def trimEnd (s : List Char) : List Char := (s.reverse.dropWhile isWhiteSpace).reverse

/-- Trimming takes white space away and nothing else. -/
theorem exists_append_trimEnd (s : List Char) :
    ∃ t, s = trimEnd s ++ t ∧ ∀ c ∈ t, isWhiteSpace c := by
  refine ⟨(s.reverse.takeWhile isWhiteSpace).reverse, ?_, fun c hc => ?_⟩
  · rw [trimEnd, ← List.reverse_append, List.takeWhile_append_dropWhile, List.reverse_reverse]
  · exact List.all_eq_true.1 List.all_takeWhile c (List.mem_reverse.1 hc)

end WordGraph.Text
