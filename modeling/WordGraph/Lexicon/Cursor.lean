import WordGraph.Lexicon.Query

/-!
# Cursors

A cursor hands out the words of a lexicon one at a time, like a traversal, but can be kept while the
lexicon is put to other use. It remembers for which version of which lexicon it was made, and is
refused by any other.
-/

namespace WordGraph

/-- A list of words of a lexicon of which some have been handed out. -/
structure Cursor (σ : Type) where
  /-- The identity of the lexicon. -/
  identity : Nat
  /-- The version of the lexicon. -/
  version : Nat
  traversal : Traversal σ
  deriving Repr

variable {σ : Type} [Symbol σ]

/-- A cursor for the words that fit a pattern. -/
def Lexicon.cursor (l : Lexicon σ) (p : Pattern σ) : Cursor σ := ⟨l.identity, l.version, l.find p⟩

/-- Whether a cursor was made for this version of this lexicon. -/
def Cursor.isFor (c : Cursor σ) (l : Lexicon σ) : Bool :=
  l.identity == c.identity && l.version == c.version

/-- The next word of a cursor, or nothing behind the last one, and the cursor that goes on from
there. -/
def Cursor.advance (c : Cursor σ) (l : Lexicon σ) :
    Except (Error σ) (Option (Word σ) × Cursor σ) :=
  if c.isFor l then
    match c.traversal.next l.arena with
    | .error f => .error (.fault f)
    | .ok (some (w, t)) => .ok (some w, { c with traversal := t })
    | .ok none => .ok (none, { c with traversal := ⟨c.traversal.policy, []⟩ })
  else .error .staleCursor

end WordGraph
