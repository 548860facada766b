import WordGraph.Numbering

/-!
# Sums that are checked as they grow

A sum of counts may be checked at each addition, so that counting fails in the midst of the edges of
some state. A sum that got out of range stays out of range: some addition is too great just if the
whole sum is.

* `countFrom?_eq` — the count of a state, with additions that may fail
* `computeChecked_eq` — a numbering comes out the same, and is missing in the same cases
-/

namespace WordGraph.Numbering

variable {σ : Type} [Symbol σ]

/-- A sum of two counts, if it is a count. -/
def checkedAdd (n m : Nat) : Option Nat := if n + m < countLimit then some (n + m) else none

/-- The number of words accepted from a state, by the counts of its children, which are added one at a
time. -/
def countFrom? (counts : Array Nat) (x : State σ) : Option Nat :=
  x.edges.targets.foldlM (fun n t => checkedAdd n (countAt counts t)) x.isFinal.toNat

/-- Counts the states of a list one after the other, as long as no addition fails. -/
def countAllChecked (a : Arena σ) (counts : Array Nat) :
    List StateId → Except Fault (Option (Array Nat))
  | [] => .ok (some counts)
  | s :: order => do
    match countFrom? counts (← a.state s) with
    | some n => countAllChecked a (counts.setIfInBounds s.slot n) order
    | none => return none

/-- Counts the words accepted from each state that can be reached from a state; nothing if an addition
fails. -/
def computeChecked (a : Arena σ) (root : StateId) : Except Fault (Option Numbering) := do
  let order := (← a.postorder root).order
  let counts ← countAllChecked a (Array.replicate a.slotCount 0) order
  return counts.map fun counts => ⟨counts, order.length⟩

/-- No addition fails just if the sum is in range. -/
theorem foldlM_checkedAdd {α : Type} (f : α → Nat) (l : List α) {n : Nat} (hn : n < countLimit) :
    l.foldlM (fun n b => checkedAdd n (f b)) n =
      if n + total f l < countLimit then some (n + total f l) else none := by
  induction l generalizing n with
  | nil => simp [hn]
  | cons b l ih =>
    rw [List.foldlM_cons, total_cons, checkedAdd, ← Nat.add_assoc]
    by_cases hb : n + f b < countLimit
    · rw [if_pos hb]
      exact ih hb
    · rw [if_neg hb, if_neg fun h => hb (Nat.lt_of_le_of_lt (Nat.le_add_right ..) h)]
      rfl

theorem countFrom?_eq (counts : Array Nat) (x : State σ) :
    countFrom? counts x =
      if countFrom counts x < countLimit then some (countFrom counts x) else none :=
  foldlM_checkedAdd _ _ (by cases x.isFinal <;> decide)

theorem countAllChecked_eq (a : Arena σ) (counts : Array Nat) (order : List StateId) :
    countAllChecked a counts order = countAll a counts order := by
  induction order generalizing counts with
  | nil => rfl
  | cons s order ih =>
    rw [countAllChecked, countAll]
    refine congrArg _ (funext fun x => ?_)
    rw [countFrom?_eq]
    by_cases hlt : countFrom counts x < countLimit
    · simp only [if_pos hlt]
      exact ih _
    · simp only [if_neg hlt]

/-- **A numbering is the same whenever its sums are checked.** -/
theorem computeChecked_eq (a : Arena σ) (root : StateId) :
    computeChecked a root = compute a root := by
  simp only [computeChecked, compute, countAllChecked_eq]

end WordGraph.Numbering
