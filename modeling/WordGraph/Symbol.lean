/-!
# Symbols and words

A word graph is generic in the symbols on its edges. A type of symbols has a decidable linear order,
which fixes the order of edges and, lexicographically, of words; a hash, by which equal states are
found; and a text, which messages show.

Five types of symbols come with the library: characters, ordered by code point, and the unsigned
integers of 8, 16 and 32 bits and the signed ones of 32 bits, ordered as numbers.
-/

namespace WordGraph

/-- A type of edge labels: linearly ordered, hashable and printable. -/
class Symbol (σ : Type) extends LT σ, Hashable σ where
  /-- Equality of symbols is decidable. -/
  decEq : DecidableEq σ
  /-- The order of symbols is decidable. -/
  decLT : DecidableLT σ
  lt_irrefl (a : σ) : ¬a < a
  lt_trans {a b c : σ} : a < b → b < c → a < c
  lt_trichotomy (a b : σ) : a < b ∨ a = b ∨ b < a
  /-- How messages show a symbol. -/
  text : σ → String

attribute [reducible, instance] Symbol.decEq Symbol.decLT

namespace Symbol

variable {σ : Type} [Symbol σ] {a b : σ}

theorem ne_of_lt (h : a < b) : a ≠ b := fun e => lt_irrefl b (e ▸ h)

theorem not_lt_of_lt (h : a < b) : ¬b < a := fun h' => lt_irrefl a (lt_trans h h')

theorem lt_of_not_lt_of_ne (h : ¬b < a) (hne : a ≠ b) : a < b := by
  rcases lt_trichotomy a b with h' | h' | h'
  · exact h'
  · exact absurd h' hne
  · exact absurd h' h

instance : Std.Irrefl (α := σ) (· < ·) := ⟨lt_irrefl⟩

instance : Std.Asymm (α := σ) (· < ·) := ⟨fun _ _ h => not_lt_of_lt h⟩

instance : Std.Trichotomous (α := σ) (· < ·) :=
  ⟨fun a b h h' => ((lt_trichotomy a b).resolve_left h).resolve_right h'⟩

instance : Trans (α := σ) (· < ·) (· < ·) (· < ·) := ⟨lt_trans⟩

end Symbol

/-- A word: its symbols from first to last. Words compare lexicographically, so a word comes before
each of its proper extensions. -/
abbrev Word (σ : Type) := List σ

namespace Word

variable {σ : Type} [Symbol σ]

/-- A word in brackets, its symbols set off by commas. -/
def text (w : Word σ) : String :=
  "[" ++ String.intercalate ", " (w.map Symbol.text) ++ "]"

/-- The number of leading symbols that two words share. -/
def commonPrefixLength : Word σ → Word σ → Nat
  | a :: w, b :: v => if a = b then commonPrefixLength w v + 1 else 0
  | _, _ => 0

@[simp] theorem commonPrefixLength_nil (w : Word σ) : commonPrefixLength w [] = 0 := by
  cases w <;> rfl

theorem commonPrefixLength_le_left (w v : Word σ) : commonPrefixLength w v ≤ w.length := by
  fun_induction commonPrefixLength w v with
  | case1 _ _ _ ih => simpa using ih
  | case2 => exact Nat.zero_le _
  | case3 => exact Nat.zero_le _

theorem commonPrefixLength_le_right (w v : Word σ) : commonPrefixLength w v ≤ v.length := by
  fun_induction commonPrefixLength w v with
  | case1 _ _ _ ih => simpa using ih
  | case2 => exact Nat.zero_le _
  | case3 => exact Nat.zero_le _

/-- The shared symbols are the same in both words. -/
theorem take_commonPrefixLength (w v : Word σ) :
    w.take (commonPrefixLength w v) = v.take (commonPrefixLength w v) := by
  fun_induction commonPrefixLength w v with
  | case1 _ _ _ ih => simpa using ih
  | case2 => rfl
  | case3 => rfl

/-- The symbols of a text, one for each of its characters. -/
def ofString (s : String) : Word Char := s.toList

end Word

/-! ## The integers -/

instance : Symbol UInt8 where
  decEq := inferInstance
  decLT := inferInstance
  lt_irrefl := UInt8.lt_irrefl
  lt_trans := UInt8.lt_trans
  lt_trichotomy a b := by
    rw [UInt8.lt_iff_toNat_lt, UInt8.lt_iff_toNat_lt, ← UInt8.toNat_inj]; omega
  text := toString

instance : Symbol UInt16 where
  decEq := inferInstance
  decLT := inferInstance
  lt_irrefl := UInt16.lt_irrefl
  lt_trans := UInt16.lt_trans
  lt_trichotomy a b := by
    rw [UInt16.lt_iff_toNat_lt, UInt16.lt_iff_toNat_lt, ← UInt16.toNat_inj]; omega
  text := toString

instance : Symbol UInt32 where
  decEq := inferInstance
  decLT := inferInstance
  lt_irrefl := UInt32.lt_irrefl
  lt_trans := UInt32.lt_trans
  lt_trichotomy a b := by
    rw [UInt32.lt_iff_toNat_lt, UInt32.lt_iff_toNat_lt, ← UInt32.toNat_inj]; omega
  text := toString

instance : Symbol Int32 where
  decEq := inferInstance
  decLT := inferInstance
  lt_irrefl _ := Int32.lt_irrefl
  lt_trans := Int32.lt_trans
  lt_trichotomy a b := by
    rw [Int32.lt_iff_toInt_lt, Int32.lt_iff_toInt_lt, ← Int32.toInt_inj]; omega
  text := toString

end WordGraph
