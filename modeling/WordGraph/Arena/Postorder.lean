import WordGraph.Arena.Preorder

/-!
# States after their children

`Arena.postorder` lists the states that can be reached from a state in the order in which a search
that goes deep first leaves them, and tells whether the graph it met is free of cycles. Without a
cycle, every state comes after all states that its edges lead to.

A state is fresh until it is entered; it is left once all of its edges are followed. The states that
are entered and not left form the path of the search, so an edge closes a cycle just if it leads to
one of them.

## Termination

Each turn of the loop either enters a fresh state, or it enters none and shortens the list of tasks.
-/

namespace WordGraph

/-- How far a search has come with a state. -/
inductive Mark where
  /-- Not met so far. -/
  | fresh
  /-- Met, with edges still to follow. -/
  | entered
  /-- Met, and all edges followed. -/
  | left
  deriving DecidableEq, Repr

/-- What a search still has to do. -/
inductive Task where
  /-- Go to a state. -/
  | enter (s : StateId)
  /-- Be done with a state. -/
  | leave (s : StateId)
  deriving DecidableEq, Repr

/-- The outcome of a search: the states in the order in which they were left. -/
structure Postorder where
  order : List StateId
  /-- Whether no cycle was met. -/
  isAcyclic : Bool
  deriving DecidableEq, Repr

namespace Arena

variable {σ : Type} [Symbol σ]

/-- Changing the mark of a slot to one that is not `fresh` makes no slot fresh. -/
theorem count_fresh_set_le {marks : Array Mark} {i : Nat} {m : Mark} (h : i < marks.size)
    (hm : m ≠ .fresh) : (marks.set i m).count .fresh ≤ marks.count .fresh := by
  simp only [Array.count, Array.countP_set]
  simp [hm]

/-- Entering a fresh slot leaves fewer fresh ones. -/
theorem count_fresh_set_lt {marks : Array Mark} {i : Nat} {m : Mark} (h : i < marks.size)
    (hi : marks[i] = .fresh) (hm : m ≠ .fresh) :
    (marks.set i m).count .fresh < marks.count .fresh := by
  have hpos : 0 < marks.count .fresh :=
    Array.count_pos_iff.2 (Array.mem_iff_getElem.2 ⟨i, h, hi⟩)
  have hset : (marks.set i m).count .fresh = marks.count .fresh - 1 := by
    simp [Array.count, Array.countP_set, hi, hm]
  omega

/-- Does the tasks of a search. The states that were left gather in front of `order`. -/
def postorderLoop (a : Arena σ) (marks : Array Mark) (order : List StateId) (isAcyclic : Bool) :
    List Task → Except Fault Postorder
  | [] => .ok ⟨order.reverse, isAcyclic⟩
  | .leave s :: tasks =>
    if h : s.slot < marks.size then
      a.postorderLoop (marks.set s.slot .left) (s :: order) isAcyclic tasks
    else .error .deletedSlot
  | .enter s :: tasks =>
    if h : s.slot < marks.size then
      match hs : marks[s.slot] with
      | .left => a.postorderLoop marks order isAcyclic tasks
      | .entered => a.postorderLoop marks order false tasks
      | .fresh =>
        match a.state s with
        | .error f => .error f
        | .ok x =>
          a.postorderLoop (marks.set s.slot .entered) order isAcyclic
            (x.edges.targets.map .enter ++ .leave s :: tasks)
    else .error .deletedSlot
termination_by tasks => (marks.count .fresh, tasks.length)
decreasing_by
  -- a state is left: no slot gets fresh, and a task is done
  · rcases Nat.lt_or_eq_of_le (count_fresh_set_le h (m := .left) (by decide)) with hlt | heq
    · exact Prod.Lex.left _ _ hlt
    · rw [heq]
      exact Prod.Lex.right _ (by simp)
  · exact Prod.Lex.right _ (by simp)
  · exact Prod.Lex.right _ (by simp)
  -- a state is entered: its slot was fresh
  · exact Prod.Lex.left _ _ (count_fresh_set_lt h hs (by decide))

/-- The states that can be reached from a state, in the order in which a search leaves them. -/
def postorder (a : Arena σ) (root : StateId) : Except Fault Postorder :=
  a.postorderLoop (Array.replicate a.slotCount .fresh) [] true [.enter root]

end Arena

end WordGraph
