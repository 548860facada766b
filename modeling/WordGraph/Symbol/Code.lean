import WordGraph.Text.CharLiteral

/-!
# Symbol codes

A dump stores a symbol as a number of one, two or four bytes. `SymbolCode` gives a type of symbols
its width and the two directions of the code, which are inverse to each other: every symbol has a
code that fits the width, and a number is the code of at most one symbol.

Characters are coded by their code point in four bytes, so the surrogates and everything above
U+10FFFF code no character. The unsigned integers are their own codes. The signed integers have
none.
-/

namespace WordGraph

/-- The number of bytes of a stored symbol. -/
inductive Width where
  | one
  | two
  | four
  deriving DecidableEq, Repr

/-- The width as a number of bytes. -/
def Width.bytes : Width → Nat
  | .one => 1
  | .two => 2
  | .four => 4

/-- How many codes a width can hold. -/
def Width.range : Width → Nat
  | .one => 256
  | .two => 65536
  | .four => 4294967296

/-- Symbols that a dump can store. -/
class SymbolCode (σ : Type) where
  /-- The width of the stored codes. -/
  width : Width
  /-- The code of a symbol. -/
  toCode : σ → Nat
  /-- The symbol with a given code, if there is one. -/
  ofCode? : Nat → Option σ
  toCode_lt (a : σ) : toCode a < width.range
  ofCode?_toCode (a : σ) : ofCode? (toCode a) = some a
  toCode_of_ofCode? {n : Nat} {a : σ} : ofCode? n = some a → toCode a = n

namespace SymbolCode

theorem ofCode?_eq_some_iff {σ : Type} [SymbolCode σ] {n : Nat} {a : σ} :
    ofCode? n = some a ↔ toCode a = n :=
  ⟨toCode_of_ofCode?, fun h => h ▸ ofCode?_toCode a⟩

instance : SymbolCode UInt8 where
  width := .one
  toCode a := a.toNat
  ofCode? n := if n < 256 then some (UInt8.ofNat n) else none
  toCode_lt a := a.toNat_lt
  ofCode?_toCode a := by simp [a.toNat_lt]
  toCode_of_ofCode? := by grind [UInt8.toNat_ofNat_of_lt']

instance : SymbolCode UInt16 where
  width := .two
  toCode a := a.toNat
  ofCode? n := if n < 65536 then some (UInt16.ofNat n) else none
  toCode_lt a := a.toNat_lt
  ofCode?_toCode a := by simp [a.toNat_lt]
  toCode_of_ofCode? := by grind [UInt16.toNat_ofNat_of_lt']

instance : SymbolCode UInt32 where
  width := .four
  toCode a := a.toNat
  ofCode? n := if n < 4294967296 then some (UInt32.ofNat n) else none
  toCode_lt a := a.toNat_lt
  ofCode?_toCode a := by simp [a.toNat_lt]
  toCode_of_ofCode? := by grind [UInt32.toNat_ofNat_of_lt']

theorem toNat_ofNat_of_isValidChar {n : Nat} (h : n.isValidChar) : (Char.ofNat n).toNat = n := by
  rw [Char.ofNat, dif_pos h]
  rfl

instance : SymbolCode Char where
  width := .four
  toCode c := c.toNat
  ofCode? n := if n.isValidChar then some (Char.ofNat n) else none
  toCode_lt c := c.val.toNat_lt
  ofCode?_toCode c := by
    have h : c.toNat.isValidChar := c.valid
    rw [if_pos h, Char.ofNat_toNat]
  toCode_of_ofCode? := by grind [toNat_ofNat_of_isValidChar]

end SymbolCode

end WordGraph
