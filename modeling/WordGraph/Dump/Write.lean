import WordGraph.Dump.Contents
import WordGraph.Lexicon.Query

/-!
# Dumping a lexicon

The nodes of a dump are the states in reach, in the order of a first visit, and its edges stand in
the order of their sources. So a dump hangs on the words of the lexicon, on where it is in its life
and, as long as words can be added, on the last word; the slots and serials of its states leave no
trace.
-/

namespace WordGraph

variable {σ : Type} [Symbol σ]

/-- The position of each listed state by slot, 0 for a slot that is not listed. -/
def Dump.positions (slotCount : Nat) (order : List StateId) : Array Nat :=
  order.zipIdx.foldl (fun at? p => at?.setIfInBounds p.1.slot p.2) (Array.replicate slotCount 0)

/-- The edges of a state as they stand in a dump. -/
def Dump.edgesOf (positions : Array Nat) (s : StateId) (x : State σ) : List (Dump.Edge σ) :=
  x.edges.edges.map fun e =>
    ⟨(positions[s.slot]?).getD 0, e.1, (positions[e.2.slot]?).getD 0⟩

namespace Lexicon

/-- What a dump says of a lexicon, and the lexicon that remembers its numbering. -/
def contents (l : Lexicon σ) : Run σ (Dump.Contents σ × Lexicon σ) := do
  let order ← l.arena.preorder l.root
  let positions := Dump.positions l.arena.slotCount order
  let states ← order.mapM fun s => return (s, ← l.arena.state s)
  let (n, l) ← l.numbering
  let frontier := if l.lifecycle = .active then l.automaton.lastWord else []
  return (⟨l.lifecycle, l.size, l.longest, frontier,
    states.map fun p => ⟨p.2.isFinal, n.count p.1⟩,
    states.flatMap fun p => Dump.edgesOf positions p.1 p.2⟩, l)

/-- Writes the dump of a lexicon to where there is room for so many bytes, or for any number. It answers
the bytes that were written, why no more were, and the lexicon that remembers its numbering. -/
def dumpTo [SymbolCode σ] (l : Lexicon σ) (room : Option Nat) :
    Run σ (Bytes × Option Dump.Stop × Lexicon σ) := do
  let (c, l) ← l.contents
  let (bytes, stop?) := c.writeTo room
  if stop?.isNone then Run.note (.dumped l.size c.nodes.length c.edges.length)
  return (bytes, stop?, l)

/-- The dump of a lexicon, and the lexicon that remembers its numbering. In memory there is room for any
number of bytes, so a dump that stops has too many edges. -/
def dump [SymbolCode σ] (l : Lexicon σ) : Run σ (Bytes × Lexicon σ) := do
  let (bytes, stop?, l) ← l.dumpTo none
  if stop?.isSome then Run.fail (.fault .tooManyEdges) else return (bytes, l)

end Lexicon

end WordGraph
