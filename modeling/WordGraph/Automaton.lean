import WordGraph.Register

/-!
# Growing an automaton

An automaton grows by one word at a time and stays minimal but for one path: the path that the last
word spells from the start state. The states on that path are nobody else's and are not registered;
every other state is registered.

A new word keeps the part of the path that it shares with the last word. No later word is expected
to go along the rest, so the rest is settled, from its end backwards: a state whose kind is
registered gives way to the registered state, any other is registered itself. Then the symbols that
the word adds become the new rest of the path.

This is meant for words that come in lexicographic order. A word out of order may find that the edge
it adds is there already, with a settled state behind it. It takes the edge, and the words that went
along it are lost.
-/

namespace WordGraph

/-- An automaton, with the path of its last word. -/
structure Automaton (σ : Type) [Symbol σ] where
  arena : Arena σ
  register : Register σ
  root : StateId
  /-- The path of the last word: each symbol with the state that it leads to. -/
  path : List (σ × StateId)

/-- A state that gave way to another, and the symbol of the edge that was moved. -/
structure Merge (σ : Type) where
  state : StateId
  into : StateId
  symbol : σ
  deriving DecidableEq, Repr

/-- What adding a word did. -/
structure Insertion where
  /-- The word was not accepted before. -/
  added : Bool
  /-- A state was made, settled or made final. -/
  modified : Bool
  /-- An edge was taken, and the words along it were lost. -/
  overwrote : Bool
  deriving DecidableEq, Repr

namespace Automaton

variable {σ : Type} [Symbol σ]

/-- The automaton that accepts nothing. It has one state. -/
def initial : Automaton σ := ⟨⟨#[some ⟨0, false, ∅⟩], [], 1, 1⟩, ∅, ⟨0⟩, []⟩

/-- The start state of the initial automaton is the first state of an empty arena. -/
theorem create_empty :
    (∅ : Arena σ).create false =
      .ok ((initial : Automaton σ).root, (initial : Automaton σ).arena) :=
  rfl

/-- The word that was added last, which is empty as long as there was none. -/
def lastWord (g : Automaton σ) : Word σ := g.path.map Prod.fst

/-- The state at the end of a path. -/
def endOf (root : StateId) (path : List (σ × StateId)) : StateId :=
  (path.getLast?.map Prod.snd).getD root

/-! ## Settling the end of the path -/

/-- Settles states of the path, the deepest first; the last one hangs on `anchor`. The merges gather
in front of `merges`. -/
def settleLoop (arena : Arena σ) (register : Register σ) (anchor : StateId)
    (merges : List (Merge σ)) :
    List (σ × StateId) → Except Fault (Arena σ × Register σ × List (Merge σ))
  | [] => .ok (arena, register, merges.reverse)
  | (c, s) :: rest => do
    match ← register.find? arena s with
    | some t =>
      -- a state on the path has no other edge that leads to it
      let (_, arena) ← arena.setEdge ((rest.head?.map Prod.snd).getD anchor) c t
      settleLoop (arena.delete s) register anchor (⟨s, t, c⟩ :: merges) rest
    | none =>
      let (_, register) ← register.insert arena s
      settleLoop arena register anchor merges rest

/-- Settles the path from depth `k` on, and answers the merges in the order in which they were
made. -/
def settle (g : Automaton σ) (k : Nat) : Except Fault (Automaton σ × List (Merge σ)) := do
  let kept := g.path.take k
  let (arena, register, merges) ←
    settleLoop g.arena g.register (endOf g.root kept) [] (g.path.drop k).reverse
  return ({ g with arena, register, path := kept }, merges)

/-! ## Adding a word -/

/-- Hangs a chain of new states for the symbols of a word on a state, in an arena of at most `limit`
slots. It answers the arena, the last state, the chain, and whether an edge was taken; the chain
gathers in front of `chain`. -/
def hangWithin (limit : Option Nat) (arena : Arena σ) (parent : StateId)
    (chain : List (σ × StateId)) (overwrote : Bool) :
    Word σ → Except Fault (Arena σ × StateId × List (σ × StateId) × Bool)
  | [] => .ok (arena, parent, chain.reverse, overwrote)
  | c :: w => do
    let (child, arena) ← arena.createWithin limit false
    let (old, arena) ← arena.setEdge parent c child
    hangWithin limit arena child ((c, child) :: chain) (overwrote || old.isSome) w

/-- Hangs a chain of new states on a state, in an arena of as many slots as there are identifiers. -/
def hang (arena : Arena σ) (parent : StateId) (chain : List (σ × StateId)) (overwrote : Bool)
    (w : Word σ) : Except Fault (Arena σ × StateId × List (σ × StateId) × Bool) :=
  hangWithin (some slotLimit) arena parent chain overwrote w

/-- A chain is hung one state after the other. -/
theorem hang_cons (arena : Arena σ) (parent : StateId) (chain : List (σ × StateId))
    (overwrote : Bool) (c : σ) (w : Word σ) :
    hang arena parent chain overwrote (c :: w) = (do
      let (child, arena) ← arena.create false
      let (old, arena) ← arena.setEdge parent c child
      hang arena child ((c, child) :: chain) (overwrote || old.isSome) w) := rfl

/-- Adds a word, in order or not, in an arena of at most `limit` slots. -/
def addWithin (limit : Option Nat) (g : Automaton σ) (w : Word σ) :
    Except Fault (Automaton σ × Insertion × List (Merge σ)) := do
  let previous := g.lastWord
  let k := w.commonPrefixLength previous
  let settles := k < previous.length
  let (g, merges) ← g.settle k
  let s := endOf g.root g.path
  match w.drop k with
  | [] =>
    -- the word ends on the path of the last one
    if (← g.arena.state s).isFinal then
      return (g, ⟨false, settles, false⟩, merges)
    else
      return ({ g with arena := ← g.arena.setFinal s true }, ⟨true, true, false⟩, merges)
  | suffix =>
    let (arena, s, chain, overwrote) ← hangWithin limit g.arena s [] false suffix
    return ({ g with arena := ← arena.setFinal s true, path := g.path ++ chain },
      ⟨true, true, overwrote⟩, merges)

/-- Adds a word, in order or not, in an arena of as many slots as there are identifiers. -/
def add (g : Automaton σ) (w : Word σ) :
    Except Fault (Automaton σ × Insertion × List (Merge σ)) :=
  g.addWithin (some slotLimit) w

/-- Settles the whole path and the start state. -/
def close (g : Automaton σ) : Except Fault (Automaton σ × List (Merge σ)) := do
  let (g, merges) ← g.settle 0
  let (_, register) ← g.register.canonicalize g.arena g.root
  return ({ g with register }, merges)

end Automaton

end WordGraph
