import WordGraph.Error

/-!
# Numbers as bytes

A dump holds numbers of a fixed width, the least significant byte first. Writing a number in `n`
bytes keeps it modulo `range n`, which is 256 to the power `n`, so reading gives it back if it is
less than that. A reader takes values off the front of the bytes that are left.
-/

namespace WordGraph

/-- A sequence of bytes. -/
abbrev Bytes := List UInt8

namespace Dump

/-- How many numbers so many bytes can hold. -/
def range : Nat → Nat
  | 0 => 1
  | n + 1 => 256 * range n

/-- A number in so many bytes, the least significant first. -/
def encode : Nat → Nat → Bytes
  | 0, _ => []
  | n + 1, v => UInt8.ofNat v :: encode n (v / 256)

/-- The number in some bytes, the least significant first. -/
def decode : Bytes → Nat
  | [] => 0
  | b :: bs => b.toNat + 256 * decode bs

@[simp] theorem length_encode (n v : Nat) : (encode n v).length = n := by
  induction n generalizing v with
  | zero => rfl
  | succ n ih => simp [encode, ih]

theorem decode_lt (bs : Bytes) : decode bs < range bs.length := by
  induction bs with
  | nil => exact Nat.one_pos
  | cons b bs ih =>
    have := b.toNat_lt
    simp only [decode, List.length_cons, range]
    omega

/-- **Writing keeps a number modulo the range of its width.** -/
theorem decode_encode (n v : Nat) : decode (encode n v) = v % range n := by
  induction n generalizing v with
  | zero => simp [encode, decode, range, Nat.mod_one]
  | succ n ih =>
    rw [encode, decode, ih, range, Nat.mod_mul]
    simp

/-- **Bytes are the only writing of their number in as many bytes.** -/
theorem encode_decode (bs : Bytes) : encode bs.length (decode bs) = bs := by
  induction bs with
  | nil => rfl
  | cons b bs ih =>
    have hb := b.toNat_lt
    have hdiv : (b.toNat + 256 * decode bs) / 256 = decode bs := by omega
    have hmod : UInt8.ofNat (b.toNat + 256 * decode bs) = b := by
      rw [← UInt8.toNat_inj]
      simp only [UInt8.toNat_ofNat']
      omega
    simp only [List.length_cons, decode, encode, hdiv, hmod, ih]

/-! ## Reading -/

/-- A reader of a value from the front of some bytes. -/
abbrev Reader := StateT Bytes (Except FormatError)

/-- Reads so many bytes. -/
def take (n : Nat) : Reader Bytes := fun bs =>
  let taken := bs.take n
  if taken.length = n then .ok (taken, bs.drop n) else .error .truncated

/-- Reads a number of so many bytes. -/
def number (n : Nat) : Reader Nat := return decode (← take n)

/-- Reads so many values, behind the reversed list `done`. -/
def manyFrom {α : Type} (reader : Reader α) (done : List α) : Nat → Reader (List α)
  | 0 => return done.reverse
  | n + 1 => do manyFrom reader ((← reader) :: done) n

/-- Reads so many values one after the other. -/
def many {α : Type} (n : Nat) (reader : Reader α) : Reader (List α) := manyFrom reader [] n

/-- Reading takes as many bytes as it is asked for, and leaves the rest. -/
theorem take_append {n : Nat} {bs : Bytes} (h : bs.length = n) (rest : Bytes) :
    take n (bs ++ rest) = .ok (bs, rest) := by
  subst h
  simp [take]

end Dump

end WordGraph
