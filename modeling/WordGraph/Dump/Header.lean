import WordGraph.Dump.Bytes
import WordGraph.Lifecycle
import WordGraph.Symbol.Code

/-!
# The header of a dump

A dump starts with a header of 32 bytes: the letters `DAWG`, the version of the format, the width of
the symbols, the life of the automaton, and a byte that is 0; then the number of words, in eight
bytes, and in four bytes each the length of the longest word and the numbers of nodes, of edges and
of symbols of the last word.

The header tells how long the whole dump is.
-/

namespace WordGraph.Dump

/-- The letters that a dump starts with. -/
def magic : Bytes := [0x44, 0x41, 0x57, 0x47]

/-- The version of the format. -/
def version : Nat := 1

/-- The number of bytes of a header. -/
def headerLength : Nat := 32

/-- The number of bytes of a node. -/
def nodeLength : Nat := 9

/-- How the life of an automaton is stored. -/
def lifecycleCode : Lifecycle → Nat
  | .empty => 0
  | .active => 1
  | .closed => 2

/-- The life of an automaton with a given code, if there is one. -/
def lifecycleOfCode? : Nat → Option Lifecycle
  | 0 => some .empty
  | 1 => some .active
  | 2 => some .closed
  | _ => none

theorem lifecycleOfCode?_eq_some_iff {n : Nat} {l : Lifecycle} :
    lifecycleOfCode? n = some l ↔ n = lifecycleCode l := by
  unfold lifecycleOfCode?
  split <;> cases l <;> simp_all [lifecycleCode]

/-- The header of a dump, but for what is the same in all dumps of one type of symbols. -/
structure Header where
  lifecycle : Lifecycle
  words : Nat
  longest : Nat
  nodes : Nat
  edges : Nat
  frontier : Nat
  deriving DecidableEq, Repr

namespace Header

/-- The bytes of a header in front of the number of edges. -/
def front (width : Width) (h : Header) : Bytes :=
  magic ++ encode 1 version ++ encode 1 width.bytes ++ encode 1 (lifecycleCode h.lifecycle) ++
    encode 1 0 ++ encode 8 h.words ++ encode 4 h.longest ++ encode 4 h.nodes

/-- The bytes of a header. -/
def bytes (width : Width) (h : Header) : Bytes :=
  h.front width ++ encode 4 h.edges ++ encode 4 h.frontier

theorem length_bytes (width : Width) (h : Header) : (h.bytes width).length = headerLength := by
  simp [bytes, front, magic, headerLength]

/-- Reads a header. -/
def read (width : Width) : Reader Header := do
  unless (← take magic.length) = magic do throw .badMagic
  let v ← number 1
  unless v = version do throw (.unsupportedVersion v)
  let w ← number 1
  unless w = width.bytes do throw (.symbolWidth width.bytes w)
  let some lifecycle := lifecycleOfCode? (← number 1) | throw (.badHeader "unknown lifecycle")
  unless (← number 1) = 0 do throw (.badHeader "reserved byte is set")
  return {
    lifecycle
    words := ← number 8
    longest := ← number 4
    nodes := ← number 4
    edges := ← number 4
    frontier := ← number 4 }

/-- The number of bytes of the whole dump. -/
def dumpLength (width : Width) (h : Header) : Nat :=
  headerLength + h.frontier * width.bytes + h.nodes * nodeLength + h.edges * (8 + width.bytes)

end Header

end WordGraph.Dump
