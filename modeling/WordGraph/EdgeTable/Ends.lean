import WordGraph.EdgeTable

/-!
# Taking edges from both ends

The edges of a table can be handed out one at a time from either end, in any mixture: from the front
in increasing order of symbols, from the back in decreasing order. `Pending` holds the edges between
the two ends that are still to come.
-/

namespace WordGraph

/-- Edges that are still to be handed out, in increasing order of symbols. -/
structure EdgeTable.Pending (σ : Type) where
  /-- The edges to come. -/
  edges : List (σ × StateId)
  deriving Repr

namespace EdgeTable.Pending

variable {σ : Type}

/-- All edges of a table. -/
def ofTable [Symbol σ] (t : EdgeTable σ) : Pending σ := ⟨t.edges⟩

/-- The number of edges to come. -/
def size (p : Pending σ) : Nat := p.edges.length

/-- Hands out the first edge to come. -/
def popFront (p : Pending σ) : Option (σ × StateId) × Pending σ :=
  (p.edges.head?, ⟨p.edges.tail⟩)

/-- Hands out the last edge to come. -/
def popBack (p : Pending σ) : Option (σ × StateId) × Pending σ :=
  (p.edges.getLast?, ⟨p.edges.dropLast⟩)

theorem edges_popFront (p : Pending σ) :
    p.edges = p.popFront.1.toList ++ p.popFront.2.edges := by
  cases h : p.edges <;> simp [popFront, h]

theorem edges_popBack (p : Pending σ) :
    p.edges = p.popBack.2.edges ++ p.popBack.1.toList := by
  rcases List.eq_nil_or_concat p.edges with h | ⟨es, e, h⟩ <;> simp [popBack, h]

end EdgeTable.Pending

end WordGraph
