import WordGraph.Lexicon

/-!
# Adding a word in place

`Lexicon.add` answers with a new lexicon, so the one that it was asked of is as it was whatever
happens. Here a lexicon is changed where it stands, one part after the other, and a word that is refused
leaves whatever it has become by then. Words that are taken in any order are added by the same
operation, which is told not to mind the order.

The word is not compared with the last one as a whole but symbol by symbol along the path of the last
word, in search of the part of the path that it keeps.

* `InPlace` — an operation that changes a lexicon where it stands
* `Automaton.agreement` — the part of the path that a word keeps
* `Lexicon.addInPlace` — adding a word, in order or not
-/

namespace WordGraph

/-- An operation that changes a lexicon where it stands. A refusal leaves the lexicon as it is by then,
an error of the run leaves none. -/
abbrev InPlace (σ : Type) [Symbol σ] (α : Type) : Type :=
  ExceptT (Error σ) (StateT (Lexicon σ) (Run σ)) α

variable {σ : Type} [Symbol σ]

namespace InPlace

/-- What an operation comes to: its answer or a refusal, and the lexicon as it is then. -/
def outcome {α : Type} (x : InPlace σ α) (l : Lexicon σ) :
    Except (Error σ) (Except (Error σ) α × Lexicon σ) :=
  (x.run.run l).result

/-- An operation that leaves the lexicon alone. -/
def lift {α : Type} (x : Run σ α) : InPlace σ α := ExceptT.lift (StateT.lift x)

/-- An operation on the automaton of a lexicon that leaves it alone. -/
def liftFault {α : Type} (x : Except Fault α) : InPlace σ α := lift (liftM x)

end InPlace

namespace Automaton

/-- Compares a word with a path from depth `n` on, and answers the depth down to which they agree;
nothing if the order counts and the word has the smaller symbol there. -/
def agreeFrom (ordered : Bool) (path : List (σ × StateId)) (n : Nat) : Word σ → Option Nat
  | [] => some n
  | c :: w =>
    match path[n]? with
    | some (d, _) =>
      if c = d then agreeFrom ordered path (n + 1) w
      else if c < d && ordered then none
      else some n
    | none => some n

/-- The depth down to which a word agrees with a path; nothing if the order counts and the word comes
before that of the path. -/
def agreement (ordered : Bool) (path : List (σ × StateId)) (w : Word σ) : Option Nat :=
  match agreeFrom ordered path 0 w with
  | some n => if ordered && n == w.length && w.length < path.length then none else some n
  | none => none

end Automaton

namespace Lexicon

open Automaton InPlace

/-- The part of the path that a word keeps, unless the word is refused. -/
def keepInPlace (ordered : Bool) (w : Word σ) : InPlace σ Nat := do
  let g := (← get).automaton
  match agreement ordered g.path w with
  | some k => return k
  | none =>
    lift (Run.note (.refused w g.lastWord))
    throw (.outOfOrder g.lastWord w)

/-- Settles the path from depth `k` on, and hangs the rest of a word in its place. -/
def growInPlace (k : Nat) (w : Word σ) : InPlace σ Insertion := do
  let g := (← get).automaton
  let settles := k < g.path.length
  let (g, merges) ← liftFault (g.settle k)
  modify ({ · with automaton := g })
  lift (noteMerges merges)
  let s := endOf g.root g.path
  match w.drop k with
  | [] =>
    if (← liftFault (g.arena.state s)).isFinal then return ⟨false, settles, false⟩
    else
      let arena ← liftFault (g.arena.setFinal s true)
      modify ({ · with automaton := { g with arena } })
      return ⟨true, true, false⟩
  | suffix =>
    let (arena, s, chain, overwrote) ← liftFault (hang g.arena s [] false suffix)
    let g := { g with arena, path := g.path ++ chain }
    modify ({ · with automaton := g })
    let arena ← liftFault (g.arena.setFinal s true)
    modify ({ · with automaton := { g with arena } })
    return ⟨true, true, overwrote⟩

/-- Brings the number of words and the length of the longest one up to date. -/
def tallyInPlace (i : Insertion) (w : Word σ) : InPlace σ Unit := do
  let l ← get
  if i.overwrote then set (← lift l.recount)
  else if i.added then
    let size ← liftFault (Numbering.plus l.size 1)
    set { l with size, longest := max l.longest w.length }

/-- Adds a word, and answers whether it is new. -/
def addInPlace (ordered : Bool) (w : Word σ) : InPlace σ Bool := do
  if (← get).lifecycle = .closed then throw .closed
  let insertion ← growInPlace (← keepInPlace ordered w) w
  modify ({ · with lifecycle := .active })
  if insertion.modified then modify touch
  tallyInPlace insertion w
  return insertion.added

end Lexicon

end WordGraph
