import WordGraph.Arena.Preorder

/-!
# Snapshots of a graph

A snapshot lists the states that can be reached and the edges between them, for drawing and for
counting. Its nodes are named by serials; they stand in the order of a first visit, so the start
state comes first. The edges are grouped by source in the same order, their symbols increasing.
-/

namespace WordGraph

/-- A state in a snapshot. -/
structure Snapshot.Node where
  serial : Nat
  isFinal : Bool
  deriving DecidableEq, Repr

/-- An edge in a snapshot: the serials of its ends and its symbol. -/
structure Snapshot.Edge (σ : Type) where
  source : Nat
  symbol : σ
  target : Nat
  deriving DecidableEq, Repr

/-- The part of a graph that can be reached from a state. -/
structure Snapshot (σ : Type) where
  nodes : List Snapshot.Node
  edges : List (Snapshot.Edge σ)
  deriving DecidableEq, Repr

namespace Arena

variable {σ : Type} [Symbol σ]

/-- The edges of a state as they stand in a snapshot. -/
def snapshotEdges (a : Arena σ) (x : State σ) : Except Fault (List (Snapshot.Edge σ)) :=
  x.edges.edges.mapM fun e => return ⟨x.serial, e.1, (← a.state e.2).serial⟩

/-- The snapshot of what can be reached from a state. -/
def snapshot (a : Arena σ) (root : StateId) : Except Fault (Snapshot σ) := do
  let states ← (← a.preorder root).mapM a.state
  let edges ← states.mapM a.snapshotEdges
  return ⟨states.map fun x => ⟨x.serial, x.isFinal⟩, edges.flatten⟩

end Arena

end WordGraph
