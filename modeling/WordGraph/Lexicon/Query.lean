import WordGraph.Arena.Walk
import WordGraph.Lexicon
import WordGraph.Snapshot
import WordGraph.Traversal

/-!
# Questions to a lexicon

All questions can be asked at any time, also while words are still being added. Those that need a
numbering answer with the lexicon that remembers it.
-/

namespace WordGraph

/-- How big a lexicon is: its states and edges in reach, its words, and its longest word. -/
structure Statistics where
  nodes : Nat
  edges : Nat
  words : Nat
  longest : Nat
  deriving DecidableEq, Repr

/-- A state that a walk has led to. -/
structure Place (σ : Type) [Symbol σ] where
  id : StateId
  state : State σ

namespace Place

variable {σ : Type} [Symbol σ]

/-- How messages show a place. -/
def text (p : Place σ) : String :=
  "Node \x7b id: " ++ p.id.text ++ ", word: " ++ toString p.state.isFinal ++ ", children: " ++
    toString p.state.edges.size ++ " \x7d"

/-- The symbols of the edges that leave a place, taken from the back. -/
def symbolsReversed (p : Place σ) : List σ := p.state.edges.edges.reverse.map Prod.fst

end Place

namespace Lexicon

variable {σ : Type} [Symbol σ]

/-! ## Words and prefixes -/

/-- Whether a word is in the lexicon. -/
def contains (l : Lexicon σ) (w : Word σ) : Except Fault Bool := do
  let (n, s) ← l.arena.walk l.root w
  if n = w.length then return (← l.arena.state s).isFinal else return false

/-- Whether a word is not empty and some word in the lexicon starts with it. -/
def hasPrefix (l : Lexicon σ) (w : Word σ) : Except Fault Bool := do
  if w.isEmpty then return false
  else return (← l.arena.walk l.root w).1 == w.length

/-- The number of leading symbols of a word with which some word in the lexicon starts. -/
def longestPrefix (l : Lexicon σ) (w : Word σ) : Except Fault Nat :=
  return (← l.arena.walk l.root w).1

/-! ## Numbers -/

/-- The number of a word, counted from 1 in lexicographic order. -/
def rank (l : Lexicon σ) (w : Word σ) : Run σ (Option Nat × Lexicon σ) := do
  let (n, l) ← l.numbering
  return (← n.rank l.arena l.root w, l)

/-- The word with a number, counted from 1 in lexicographic order. -/
def unrank (l : Lexicon σ) (i : Nat) : Run σ (Option (Word σ) × Lexicon σ) := do
  let (n, l) ← l.numbering
  return (← n.unrank l.arena l.root i, l)

/-! ## Lists of words -/

/-- The words that fit a pattern, to be handed out in lexicographic order. -/
def find (l : Lexicon σ) (p : Pattern σ) : Traversal σ := .start l.arena l.root p

/-- All words, to be handed out in lexicographic order. -/
def traversal (l : Lexicon σ) : Traversal σ := l.find .any

/-- All words in lexicographic order. -/
def words (l : Lexicon σ) : Except Fault (List (Word σ)) := l.traversal.words l.arena

/-! ## The graph -/

/-- The states in reach and the edges between them. -/
def snapshot (l : Lexicon σ) : Except Fault (Snapshot σ) := l.arena.snapshot l.root

/-- The size of the lexicon. -/
def statistics (l : Lexicon σ) : Except Fault Statistics := do
  let states ← (← l.arena.preorder l.root).mapM l.arena.state
  return ⟨states.length, total (fun x => x.edges.size) states, l.size, l.longest⟩

/-- The place that a word leads to; nothing if it leads nowhere. -/
def place? (l : Lexicon σ) (w : Word σ) : Except Fault (Option (Place σ)) := do
  let (n, s) ← l.arena.walk l.root w
  if n = w.length then return some ⟨s, ← l.arena.state s⟩ else return none

/-- Whether a word leads to the same place in one lexicon as another word does in another lexicon;
nothing if one of them leads nowhere. Places in different lexicons are never the same. -/
def samePlace? (l : Lexicon σ) (w : Word σ) (m : Lexicon σ) (v : Word σ) :
    Except Fault (Option Bool) := do
  match ← l.place? w, ← m.place? v with
  | some p, some q => return some (l.identity == m.identity && p.id == q.id)
  | _, _ => return none

/-! ## Comparison -/

/-- Whether two lexicons hold the same words. -/
def sameWords (l m : Lexicon σ) : Except Fault Bool :=
  if l.size = m.size then
    let s := l.traversal
    let t := m.traversal
    Traversal.agree l.arena m.arena s.policy t.policy s.stack t.stack
  else return false

/-- What a hash of a lexicon is made of: the number of words and the words. -/
def hashInput (l : Lexicon σ) : Except Fault (Nat × List (Word σ)) :=
  return (l.size, ← l.words)

/-- Whether the hashes of two lexicons are made of the same. -/
def sameHash (l m : Lexicon σ) : Except Fault Bool := return (← l.hashInput) == (← m.hashInput)

end Lexicon

end WordGraph
