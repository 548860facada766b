import WordGraph.Dump.Contents
import WordGraph.Lexicon

/-!
# Loading a lexicon

A lexicon is made from the contents of a dump, if they are those of a lexicon. The checks go from
the graph to what is said of it:

* it has no cycle, all nodes are in reach, and they stand in the order of a first visit;
* the counts of words and the length of the longest word are right, and each node but the start
  accepts something;
* an empty automaton has no content, and the last word of an active one spells a path that ends in a
  word and whose states are nobody else's;
* apart from that path, no two nodes accept the same words.

The first check that fails gives the error. What is left is a lexicon that goes on as the dumped one
would have.
-/

namespace WordGraph

variable {σ : Type} [Symbol σ]

namespace Dump

/-- The arena of nodes without edges. -/
def arenaOfNodes (nodes : List Node) : Arena σ :=
  ⟨(nodes.mapIdx fun i n => some ⟨i, n.isFinal, ∅⟩).toArray, [], nodes.length, nodes.length⟩

/-- The arena that contents describe. -/
def Contents.arena (c : Contents σ) : Except Fault (Arena σ) :=
  c.edges.foldlM (fun a e => return (← a.setEdge ⟨e.source⟩ e.symbol ⟨e.target⟩).2)
    (arenaOfNodes c.nodes)

/-- The slots that a list of states names. -/
def marked (slotCount : Nat) (states : List StateId) : Array Bool :=
  states.foldl (fun marks s => marks.setIfInBounds s.slot true) (Array.replicate slotCount false)

/-- Checks that the graph has no cycle, that all of it is in reach and that it is listed in the
order of a first visit. The answer is the order in which a search leaves the states. -/
def checkGraph (a : Arena σ) : Except (Error σ) (List StateId) := do
  let post ← a.postorder ⟨0⟩
  unless post.isAcyclic do throw (.format .cycle)
  let order ← a.preorder ⟨0⟩
  if order.length ≠ a.slotCount then
    throw (.format (.unreachable (((marked a.slotCount order).findIdx? (!·)).getD 0)))
  if order ≠ (List.range a.slotCount).map StateId.mk then throw (.format .nodeOrder)
  return post.order

/-- Checks the stored counts of the nodes from position `i` on. -/
def checkCounts (n : Numbering) (i : Nat) : List Node → Except FormatError Unit
  | [] => .ok ()
  | node :: nodes =>
    if n.count ⟨i⟩ ≠ node.count then .error (.countMismatch i)
    else if node.count = 0 ∧ i ≠ 0 then .error (.notMinimal i)
    else checkCounts n (i + 1) nodes

/-- The number of edges that lead to a node. -/
def inDegree (edges : List (Edge σ)) (s : StateId) : Nat := edges.countP fun e => e.target = s.slot

/-- The path that a word spells from a state, if each state on it has one edge that leads to it and
words end at the last. The path so far gathers in front of `path`. -/
def spell (a : Arena σ) (edges : List (Edge σ)) (path : List (σ × StateId)) (s : StateId) :
    Word σ → Except (Error σ) (List (σ × StateId))
  | [] => do
    unless (← a.state s).isFinal do throw (.format .badFrontier)
    return path.reverse
  | c :: w => do
    match ← a.target? s c with
    | none => throw (.format .badFrontier)
    | some t =>
      if inDegree edges t = 1 then spell a edges ((c, t) :: path) t w
      else throw (.format .badFrontier)

/-- The path of the last word. -/
def Contents.path (c : Contents σ) (a : Arena σ) : Except (Error σ) (List (σ × StateId)) :=
  match c.lifecycle with
  | .empty => do
    if c.nodes.length ≠ 1 ∨ c.edges ≠ [] ∨ (← a.state ⟨0⟩).isFinal then
      throw (.format (.badHeader "empty automaton has content"))
    return []
  | .active => spell a c.edges [] ⟨0⟩ c.frontier
  | .closed => return []

/-- Registers states one after the other, those that are marked apart. -/
def registerAll (a : Arena σ) (apart : Array Bool) (order : List StateId) :
    Except (Error σ) (Register σ) :=
  order.foldlM (fun r s => do
    if (apart[s.slot]?).getD false then return r
    let (isNew, r) ← r.insert a s
    unless isNew do throw (.format (.notMinimal s.slot))
    return r) ∅

end Dump

namespace Lexicon

/-- The lexicon with given contents. -/
def ofContents (identity : Nat) (c : Dump.Contents σ) : Run σ (Lexicon σ) := do
  let a ← c.arena
  let order ← Dump.checkGraph a
  let some n := (← Numbering.compute a ⟨0⟩) | Run.fail (.format .countOverflow)
  Run.note (.numbered n.states)
  Dump.checkCounts n 0 c.nodes
  unless n.count ⟨0⟩ = c.words do
    Run.fail (.format (.badHeader "word count does not match the graph"))
  let longest := (((← a.longestPaths order)[0]?).join).getD 0
  unless longest = c.longest do
    Run.fail (.format (.badHeader "longest word does not match the graph"))
  let path ← c.path a
  -- only a closed lexicon has registered its start state
  let apart := path.map Prod.snd ++ if c.lifecycle = .closed then [] else [⟨0⟩]
  let register ← Dump.registerAll a (Dump.marked a.slotCount apart) order
  Run.note (.loaded c.words c.nodes.length c.lifecycle)
  return .ofAutomaton identity ⟨a, register, ⟨0⟩, path⟩ c.words c.longest c.lifecycle

/-- The lexicon with a given dump. -/
def load [SymbolCode σ] (identity : Nat) (bs : Bytes) : Run σ (Lexicon σ) := do
  ofContents identity (← Dump.Contents.ofBytes bs)

end Lexicon

end WordGraph
