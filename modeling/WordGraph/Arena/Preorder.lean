import WordGraph.Arena

/-!
# States in the order of a first visit

`Arena.preorder` lists the states that can be reached from a state in the order in which a search
that goes deep first, and takes edges in the order of their symbols, first meets them. The order
hangs on the graph alone, not on the slots that its states occupy.

The search keeps the states to visit on a stack, on which a state may stand several times; only the
first visit counts.

## Termination

Each turn of the loop either marks a slot that was not marked or leaves the marks and shortens the
stack.
-/

namespace WordGraph

variable {σ : Type} [Symbol σ]

namespace Arena

/-- Setting a mark leaves fewer slots without one. -/
theorem count_false_set_lt {seen : Array Bool} {i : Nat} (h : i < seen.size)
    (hi : seen[i] = false) : (seen.set i true).count false < seen.count false := by
  have hpos : 0 < seen.count false :=
    Array.count_pos_iff.2 (Array.mem_iff_getElem.2 ⟨i, h, hi⟩)
  have hset : (seen.set i true).count false = seen.count false - 1 := by
    simp [Array.count, Array.countP_set, hi]
  omega

/-- Visits the states on a stack and what can be reached from them without a mark. The visited
states gather in front of `order`. -/
def preorderLoop (a : Arena σ) (seen : Array Bool) (order : List StateId) :
    List StateId → Except Fault (List StateId)
  | [] => .ok order.reverse
  | s :: stack =>
    if h : s.slot < seen.size then
      if hs : seen[s.slot] then a.preorderLoop seen order stack
      else
        match a.state s with
        | .error f => .error f
        | .ok x =>
          a.preorderLoop (seen.set s.slot true) (s :: order) (x.edges.targets ++ stack)
    else .error .deletedSlot
termination_by stack => (seen.count false, stack.length)
decreasing_by
  · exact Prod.Lex.right _ (by simp)
  · exact Prod.Lex.left _ _ (count_false_set_lt h (by simpa using hs))

/-- The states that can be reached from a state, in the order of the first visit. -/
def preorder (a : Arena σ) (root : StateId) : Except Fault (List StateId) :=
  a.preorderLoop (Array.replicate a.slotCount false) [] [root]

end Arena

end WordGraph
