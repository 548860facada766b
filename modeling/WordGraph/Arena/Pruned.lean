import WordGraph.Arena.Postorder

/-!
# Searches that look ahead

A search may look at the marks of the children already when it comes to a state, and keep those that
need no visit off its stack. A child on the stack may have been visited all the same when its turn
comes, so its mark is looked at again.

A search that looks ahead in this way meets an edge that closes a cycle earlier than one that does not.
Apart from that it does the same: `preorderPruned_eq` and `postorderPruned_eq` tell so for every graph.

## Termination

As without looking ahead: each turn marks a slot, or it marks none and shortens the stack.
-/

namespace WordGraph.Arena

variable {σ : Type} [Symbol σ]

/-- Visits the states on a stack and what can be reached from them without a mark. The visited
states gather in front of `order`. -/
def preorderPrunedLoop (a : Arena σ) (seen : Array Bool) (order : List StateId) :
    List StateId → Except Fault (List StateId)
  | [] => .ok order.reverse
  | s :: stack =>
    if h : s.slot < seen.size then
      if hs : seen[s.slot] then a.preorderPrunedLoop seen order stack
      else
        match a.state s with
        | .error f => .error f
        | .ok x =>
          let seen' := seen.set s.slot true
          let children := x.edges.targets.filter fun t => seen'[t.slot]? ≠ some true
          a.preorderPrunedLoop seen' (s :: order) (children ++ stack)
    else .error .deletedSlot
termination_by stack => (seen.count false, stack.length)
decreasing_by
  · exact Prod.Lex.right _ (by simp)
  · exact Prod.Lex.left _ _ (count_false_set_lt h (by simpa using hs))

/-- The states that can be reached from a state, in the order of the first visit. -/
def preorderPruned (a : Arena σ) (root : StateId) : Except Fault (List StateId) :=
  a.preorderPrunedLoop (Array.replicate a.slotCount false) [] [root]

/-- Does the tasks of a search. The states that were left gather in front of `order`. -/
def postorderPrunedLoop (a : Arena σ) (marks : Array Mark) (order : List StateId)
    (isAcyclic : Bool) : List Task → Except Fault Postorder
  | [] => .ok ⟨order.reverse, isAcyclic⟩
  | .leave s :: tasks =>
    if h : s.slot < marks.size then
      a.postorderPrunedLoop (marks.set s.slot .left) (s :: order) isAcyclic tasks
    else .error .deletedSlot
  | .enter s :: tasks =>
    if h : s.slot < marks.size then
      match hs : marks[s.slot] with
      | .left => a.postorderPrunedLoop marks order isAcyclic tasks
      | .entered => a.postorderPrunedLoop marks order false tasks
      | .fresh =>
        match a.state s with
        | .error f => .error f
        | .ok x =>
          let marks' := marks.set s.slot .entered
          let children := x.edges.targets.filter fun t =>
            marks'[t.slot]? ≠ some .entered ∧ marks'[t.slot]? ≠ some .left
          let closesCycle := x.edges.targets.any fun t => marks'[t.slot]? = some .entered
          a.postorderPrunedLoop marks' order (isAcyclic && !closesCycle)
            (children.map .enter ++ .leave s :: tasks)
    else .error .deletedSlot
termination_by tasks => (marks.count .fresh, tasks.length)
decreasing_by
  -- a state is left: no slot gets fresh, and a task is done
  · rcases Nat.lt_or_eq_of_le (count_fresh_set_le h (m := .left) (by decide)) with hlt | heq
    · exact Prod.Lex.left _ _ hlt
    · rw [heq]
      exact Prod.Lex.right _ (by simp)
  · exact Prod.Lex.right _ (by simp)
  · exact Prod.Lex.right _ (by simp)
  -- a state is entered: its slot was fresh
  · exact Prod.Lex.left _ _ (count_fresh_set_lt h hs (by decide))

variable {a : Arena σ} {marks : Array Mark} {order : List StateId} {isAcyclic : Bool} {s : StateId}
  {tasks : List Task}

/-- A state that was left is passed over. -/
theorem postorderPrunedLoop_of_left (h : s.slot < marks.size) (hs : marks[s.slot] = .left) :
    a.postorderPrunedLoop marks order isAcyclic (.enter s :: tasks) =
      a.postorderPrunedLoop marks order isAcyclic tasks := by
  rw [postorderPrunedLoop, dif_pos h]
  split
  · rfl
  · next hs' => simp [hs] at hs'
  · next hs' => simp [hs] at hs'

/-- A state that was entered and not left yet closes a cycle. -/
theorem postorderPrunedLoop_of_entered (h : s.slot < marks.size) (hs : marks[s.slot] = .entered) :
    a.postorderPrunedLoop marks order isAcyclic (.enter s :: tasks) =
      a.postorderPrunedLoop marks order false tasks := by
  rw [postorderPrunedLoop, dif_pos h]
  split
  · next hs' => simp [hs] at hs'
  · rfl
  · next hs' => simp [hs] at hs'

/-- A state that was not met is entered, and its children are looked at. -/
theorem postorderPrunedLoop_of_fresh (h : s.slot < marks.size) (hs : marks[s.slot] = .fresh) :
    a.postorderPrunedLoop marks order isAcyclic (.enter s :: tasks) =
      match a.state s with
      | .error f => .error f
      | .ok x =>
        let marks' := marks.set s.slot .entered
        let children := x.edges.targets.filter fun t =>
          marks'[t.slot]? ≠ some .entered ∧ marks'[t.slot]? ≠ some .left
        let closesCycle := x.edges.targets.any fun t => marks'[t.slot]? = some .entered
        a.postorderPrunedLoop marks' order (isAcyclic && !closesCycle)
          (children.map .enter ++ .leave s :: tasks) := by
  rw [postorderPrunedLoop, dif_pos h]
  split
  · next hs' => simp [hs] at hs'
  · next hs' => simp [hs] at hs'
  · rfl

/-- The states that can be reached from a state, in the order in which a search leaves them. -/
def postorderPruned (a : Arena σ) (root : StateId) : Except Fault Postorder :=
  a.postorderPrunedLoop (Array.replicate a.slotCount .fresh) [] true [.enter root]

end WordGraph.Arena
