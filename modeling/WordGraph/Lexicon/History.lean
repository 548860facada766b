import WordGraph.Arena.Language
import WordGraph.Dump.Read

/-!
# How lexicons come about

A lexicon starts without words or from a dump, and goes on by operations that are not refused. An
operation that is refused leaves the lexicon that it was asked of as it is, so it is no step. How many
words there can be is a matter of how many identifiers there are; within another limit of slots, or
without one, a lexicon does what it would do if its states could be told apart by any number.

* `Lexicon.Step` — one operation
* `Lexicon.Reachable` — any number of them, from any start
* `Lexicon.Grown` — the same from nothing, in an arena with any limit of slots or none
* `Lexicon.Holds` — the words of a lexicon, as its graph has them
* `Change`, `Lexicon.run` — what can happen to a lexicon, and what is answered
* `Lexicon.after` — the lexicon after any number of changes, refused ones among them
-/

namespace WordGraph

/-- What can happen to a lexicon. -/
inductive Change (σ : Type) where
  | add (w : Word σ)
  | addUnchecked (w : Word σ)
  | close
  | clear
  /-- Something is asked that needs the numbering, which the lexicon remembers from then on. -/
  | number
  deriving DecidableEq, Repr

namespace Lexicon

variable {σ : Type} [Symbol σ]

/-- The words that lead from the start state to a state at which words end. -/
def Holds (l : Lexicon σ) (w : Word σ) : Prop := l.arena.Accepts l.root w

/-- An operation makes a lexicon from another. -/
inductive Step : Lexicon σ → Lexicon σ → Prop
  | add {l l' : Lexicon σ} {w : Word σ} {isNew : Bool} (h : (l.add w).result = .ok (isNew, l')) :
      Step l l'
  | addUnchecked {l l' : Lexicon σ} {w : Word σ} {isNew : Bool}
      (h : (l.addUnchecked w).result = .ok (isNew, l')) : Step l l'
  | close {l l' : Lexicon σ} (h : l.close.result = .ok l') : Step l l'
  | clear {l l' : Lexicon σ} (h : l.clear.result = .ok l') : Step l l'
  /-- Being asked for the number of a word, or for anything else that needs the numbering. -/
  | numbering {l l' : Lexicon σ} {n : Numbering} (h : l.numbering.result = .ok (n, l')) : Step l l'
  | clone (l : Lexicon σ) (identity : Nat) : Step l (l.clone identity)

/-- Operations lead to a lexicon. -/
inductive Reachable : Lexicon σ → Prop
  | new (identity : Nat) : Reachable (.new identity)
  | load [SymbolCode σ] {identity : Nat} {bs : Bytes} {l : Lexicon σ}
      (h : (load identity bs).result = .ok l) : Reachable l
  | step {l l' : Lexicon σ} (h : Reachable l) (h' : Step l l') : Reachable l'

/-- A lexicon has come about from nothing, in an arena of at most `limit` slots, by adding words in
order or not, closing and clearing. -/
inductive Grown (limit : Option Nat) : Lexicon σ → Prop
  | new (identity : Nat) : Grown limit (.new identity)
  | add {l l' : Lexicon σ} {w : Word σ} {isNew : Bool} (h : Grown limit l)
      (h' : (l.addWithin limit w).result = .ok (isNew, l')) : Grown limit l'
  | addUnchecked {l l' : Lexicon σ} {w : Word σ} {isNew : Bool} (h : Grown limit l)
      (h' : (l.addUncheckedWithin limit w).result = .ok (isNew, l')) : Grown limit l'
  | close {l l' : Lexicon σ} (h : Grown limit l) (h' : l.close.result = .ok l') : Grown limit l'
  | clear {l l' : Lexicon σ} (h : Grown limit l) (h' : l.clear.result = .ok l') : Grown limit l'

/-- A closed lexicon stays as it is when it is closed again. -/
theorem close_of_closed {l : Lexicon σ} (h : l.lifecycle = .closed) : l.close = pure l := by
  rw [close, if_pos h]

/-! ## Changes -/

/-- Makes a change. The answer to a word is whether it is new. -/
def run (l : Lexicon σ) : Change σ → Except (Error σ) (Option Bool × Lexicon σ)
  | .add w => (fun r => (some r.1, r.2)) <$> (l.add w).result
  | .addUnchecked w => (fun r => (some r.1, r.2)) <$> (l.addUnchecked w).result
  | .close => (fun l => (none, l)) <$> l.close.result
  | .clear => (fun l => (none, l)) <$> l.clear.result
  | .number => (fun r => (none, r.2)) <$> l.numbering.result

/-- What is answered to a change. -/
def answer (l : Lexicon σ) (c : Change σ) : Except (Error σ) (Option Bool) := Prod.fst <$> l.run c

/-- The lexicon after a change. A change that is refused leaves it as it is. -/
def next (l : Lexicon σ) (c : Change σ) : Lexicon σ :=
  match l.run c with
  | .ok (_, l) => l
  | .error _ => l

/-- What is answered to one change after the other. -/
def answers (l : Lexicon σ) : List (Change σ) → List (Except (Error σ) (Option Bool))
  | [] => []
  | c :: cs => l.answer c :: (l.next c).answers cs

/-- The lexicon after one change after the other. -/
def after (l : Lexicon σ) (cs : List (Change σ)) : Lexicon σ := cs.foldl next l

end Lexicon

end WordGraph
