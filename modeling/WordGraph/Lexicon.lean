import WordGraph.Arena.Longest
import WordGraph.Automaton
import WordGraph.Journal
import WordGraph.Numbering

/-!
# Lexicons

A lexicon is a set of words, held in an automaton that grows by one word at a time. Words are added
in lexicographic order; `add` refuses a word that comes before the last one, `addUnchecked` takes it
and may lose others. `close` makes the automaton minimal, after which no word is taken until
`clear`.

A lexicon keeps the number of its words and the length of the longest one up to date. It numbers its
words when that is asked for, and keeps the numbering until the next change.

Each lexicon has an identity, given to it when it is made, and a version, which every change of its
graph raises. Together they tell whether something that refers to a lexicon still may.
-/

namespace WordGraph

/-- A set of words. -/
structure Lexicon (σ : Type) [Symbol σ] where
  automaton : Automaton σ
  /-- The number of words. -/
  size : Nat
  /-- The length of the longest word, 0 if there is none. -/
  longest : Nat
  lifecycle : Lifecycle
  /-- The number of changes since the lexicon was made. -/
  version : Nat
  /-- What tells this lexicon from others. -/
  identity : Nat
  /-- The numbering of the words, if it was asked for since the last change. -/
  numbering? : Option Numbering

namespace Lexicon

variable {σ : Type} [Symbol σ]

/-- A lexicon that is made from an automaton. -/
def ofAutomaton (identity : Nat) (g : Automaton σ) (size longest : Nat) (lifecycle : Lifecycle) :
    Lexicon σ :=
  ⟨g, size, longest, lifecycle, 0, identity, none⟩

/-- The empty lexicon. -/
def new (identity : Nat) : Lexicon σ := ofAutomaton identity .initial 0 0 .empty

/-- A lexicon of its own with the same words. -/
def clone (l : Lexicon σ) (identity : Nat) : Lexicon σ := { l with version := 0, identity }

/-- The states of a lexicon. -/
abbrev arena (l : Lexicon σ) : Arena σ := l.automaton.arena

/-- The start state. -/
abbrev root (l : Lexicon σ) : StateId := l.automaton.root

/-- Whether there are no words. -/
def isEmpty (l : Lexicon σ) : Bool := l.size == 0

/-- The number of states, in reach or not. -/
def stateCount (l : Lexicon σ) : Nat := l.arena.live

/-- Notes a change of the graph: what was made for the graph before is no good any more. -/
def touch (l : Lexicon σ) : Lexicon σ := { l with version := l.version + 1, numbering? := none }

/-- The numbering of the words, and the lexicon that remembers it. -/
def numbering (l : Lexicon σ) : Run σ (Numbering × Lexicon σ) := do
  match l.numbering? with
  | some n => return (n, l)
  | none =>
    match ← Numbering.compute l.arena l.root with
    | some n =>
      Run.note (.numbered n.states)
      return (n, { l with numbering? := some n })
    | none => Run.fail (.fault .countOverflow)

/-- Counts the words anew, and finds the longest. -/
def recount (l : Lexicon σ) : Run σ (Lexicon σ) := do
  let post ← l.arena.postorder l.root
  let lengths ← l.arena.longestPaths post.order
  let longest := ((lengths[l.root.slot]?).join).getD 0
  let (n, l) ← l.numbering
  let size := n.count l.root
  Run.note (.recounted size)
  return { l with size, longest }

/-- Writes the merges down. -/
def noteMerges (merges : List (Merge σ)) : Run σ Unit :=
  Run.noteAll (merges.map fun m => .merged m.state m.into m.symbol)

/-- Adds a word to a lexicon that is not closed, in an arena of at most `limit` slots, and answers
whether it is new. -/
def insertWithin (limit : Option Nat) (l : Lexicon σ) (w : Word σ) : Run σ (Bool × Lexicon σ) := do
  let (g, insertion, merges) ← l.automaton.addWithin limit w
  noteMerges merges
  let l := { l with automaton := g, lifecycle := .active }
  let l := if insertion.modified then l.touch else l
  let l ←
    -- how many words an edge took with it, only the graph can tell
    if insertion.overwrote then l.recount
    else if insertion.added then do
      let size ← Numbering.plus l.size 1
      pure { l with size, longest := max l.longest w.length }
    else pure l
  return (insertion.added, l)

/-- Adds a word without asking for the order, in an arena of at most `limit` slots, and answers
whether it is new. -/
def addUncheckedWithin (limit : Option Nat) (l : Lexicon σ) (w : Word σ) :
    Run σ (Bool × Lexicon σ) :=
  if l.lifecycle = .closed then Run.fail .closed else l.insertWithin limit w

/-- Adds a word that does not come before the last one, in an arena of at most `limit` slots, and
answers whether it is new. -/
def addWithin (limit : Option Nat) (l : Lexicon σ) (w : Word σ) : Run σ (Bool × Lexicon σ) :=
  let previous := l.automaton.lastWord
  if l.lifecycle = .closed then Run.fail .closed
  else if w < previous then do
    Run.note (.refused w previous)
    Run.fail (.outOfOrder previous w)
  else l.insertWithin limit w

/-- Adds a word to a lexicon that is not closed, and answers whether it is new. -/
def insert (l : Lexicon σ) (w : Word σ) : Run σ (Bool × Lexicon σ) :=
  l.insertWithin (some slotLimit) w

/-- Adds a word without asking for the order, and answers whether it is new. -/
def addUnchecked (l : Lexicon σ) (w : Word σ) : Run σ (Bool × Lexicon σ) :=
  l.addUncheckedWithin (some slotLimit) w

/-- Adds a word that does not come before the last one, and answers whether it is new. -/
def add (l : Lexicon σ) (w : Word σ) : Run σ (Bool × Lexicon σ) :=
  l.addWithin (some slotLimit) w

/-- Makes the automaton minimal. A closed lexicon stays as it is. -/
def close (l : Lexicon σ) : Run σ (Lexicon σ) :=
  if l.lifecycle = .closed then return l
  else do
    let (g, merges) ← l.automaton.close
    noteMerges merges
    let l := { l with automaton := g, lifecycle := .closed }.touch
    Run.note (.closed l.size l.stateCount g.register.size)
    return l

/-- Drops every word. -/
def clear (l : Lexicon σ) : Run σ (Lexicon σ) := do
  Run.note .cleared
  return { l with automaton := .initial, size := 0, longest := 0, lifecycle := .empty }.touch

/-- The closed lexicon of a list of words in order. -/
def ofWords (identity : Nat) (words : List (Word σ)) : Run σ (Lexicon σ) := do
  let l ← Run.fold (fun (l : Lexicon σ) w => Prod.snd <$> l.add w) (new identity) words
  l.close

/-- How messages show a lexicon. -/
def text (l : Lexicon σ) : String :=
  "Dawg \x7b words: " ++ toString l.size ++ ", states: " ++ toString l.stateCount ++
    ", lifecycle: " ++ l.lifecycle.text ++ " \x7d"

end Lexicon

end WordGraph
