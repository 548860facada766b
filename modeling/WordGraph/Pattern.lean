import WordGraph.Symbol

/-!
# Patterns

A pattern says of each place whether it asks for one symbol or takes any, and how the length of a
word has to compare with the number of places. A word fits if each of its symbols that has a place
is taken there and its length is as asked for.

The pattern without places that sets no upper limit fits every word.
-/

namespace WordGraph

/-- How the length of a word compares with the number of places of a pattern. -/
inductive LengthPolicy where
  /-- The word is as long as the pattern. -/
  | exact
  /-- The word may be shorter; the places that it does not reach are ignored. -/
  | atMost
  /-- The word may be longer; its further symbols are free. -/
  | atLeast
  deriving DecidableEq, Repr

/-- A pattern for words. -/
structure Pattern (σ : Type) where
  /-- What the places ask for, a place that takes any symbol for nothing. -/
  places : List (Option σ)
  policy : LengthPolicy
  deriving DecidableEq, Repr

namespace Pattern

variable {σ : Type} [Symbol σ]

/-- The pattern that every word fits. -/
def any : Pattern σ := ⟨[], .atLeast⟩

/-- The pattern that a word spells in which one symbol stands for any. -/
def ofWord (w : Word σ) (wildcard : σ) (policy : LengthPolicy) : Pattern σ :=
  ⟨w.map fun c => if c = wildcard then none else some c, policy⟩

/-- Whether a word that has come to its end with some places left over has a length as asked for. -/
def endsAt (policy : LengthPolicy) (places : List (Option σ)) : Bool :=
  policy == .atMost || places.isEmpty

/-- Whether a word may go on with a symbol at the first of the places left over. -/
def allows (policy : LengthPolicy) : List (Option σ) → σ → Bool
  | [], _ => policy == .atLeast
  | none :: _, _ => true
  | some d :: _, c => d = c

/-- Whether a word fits the places left over. -/
def fits (policy : LengthPolicy) : List (Option σ) → Word σ → Bool
  | places, [] => endsAt policy places
  | places, c :: w => allows policy places c && fits policy places.tail w

/-- Whether a word fits a pattern. -/
def accepts (p : Pattern σ) (w : Word σ) : Bool := fits p.policy p.places w

theorem accepts_any (w : Word σ) : any.accepts w := by
  show fits .atLeast [] w = true
  induction w with
  | nil => rfl
  | cons c w ih => simpa [fits, allows] using ih

end Pattern

end WordGraph
