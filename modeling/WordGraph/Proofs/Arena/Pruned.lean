import WordGraph.Arena.Pruned
import WordGraph.Proofs.Arena.Preorder

/-!
# Looking ahead changes nothing

A task about a state that was met comes to nothing whenever its turn comes: the state has been met then
as well. A search that keeps such tasks off its stack runs in step with one that does not, and where
the one has a task that the other has not, only the first takes a turn.

* `Thinned`, `ThinnedTasks` — a stack without some of the tasks that come to nothing
* `preorderPruned_eq`, `postorderPruned_eq` — searches that look ahead have the same answers
-/

namespace WordGraph.Arena

variable {σ : Type} [Symbol σ] {a : Arena σ} {root s t : StateId} {x : State σ}
  {seen seen' : Array Bool} {marks marks' : Array Mark} {order stack stack' ss ss' es : List StateId}
  {isAcyclic : Bool} {tasks tasks' : List Task}

/-! ## The first visits -/

/-- The second stack is the first one without some of the states that were visited. -/
inductive Thinned (seen : Array Bool) : List StateId → List StateId → Prop
  | nil : Thinned seen [] []
  | keep (s : StateId) {ss ss' : List StateId} (h : Thinned seen ss ss') :
    Thinned seen (s :: ss) (s :: ss')
  | drop {t : StateId} {ss ss' : List StateId} (ht : seen[t.slot]? = some true)
    (h : Thinned seen ss ss') : Thinned seen (t :: ss) ss'

namespace Thinned

/-- What was visited stays visited. -/
theorem set (h : Thinned seen ss ss') (hlt : s.slot < seen.size) :
    Thinned (seen.set s.slot true) ss ss' := by
  induction h with
  | nil => exact .nil
  | keep u _ ih => exact .keep u ih
  | drop ht _ ih =>
    refine .drop ?_ ih
    rw [Array.getElem?_set]
    split
    · rfl
    · exact ht

/-- The children of a state are put on both stacks, those apart on the second that were visited. -/
theorem children (h : Thinned seen ss ss') (ts : List StateId) :
    Thinned seen (ts ++ ss) (ts.filter (fun t => seen[t.slot]? ≠ some true) ++ ss') := by
  induction ts with
  | nil => exact h
  | cons t ts ih =>
    rw [List.cons_append]
    by_cases ht : seen[t.slot]? = some true
    · rw [List.filter_cons_of_neg (by simpa using ht)]
      exact .drop ht ih
    · rw [List.filter_cons_of_pos (by simpa using ht)]
      exact .keep t ih

end Thinned

theorem preorderPrunedLoop_eq (h : Thinned seen stack stack') :
    a.preorderPrunedLoop seen order stack' = a.preorderLoop seen order stack := by
  fun_induction preorderLoop a seen order stack generalizing stack' with
  | case1 seen order =>
    cases h
    rw [preorderPrunedLoop]
  | case2 seen order s stack hlt hs ih =>
    cases h with
    | keep _ h => rw [preorderPrunedLoop, dif_pos hlt, dif_pos hs, ih h]
    | drop _ h => exact ih h
  | case3 seen order s stack hlt hs f hx =>
    cases h with
    | keep _ h => rw [preorderPrunedLoop, dif_pos hlt, dif_neg hs, hx]
    | drop ht _ => exact absurd (Array.getElem?_eq_some_iff.1 ht).2 hs
  | case4 seen order s stack hlt hs x hx ih =>
    cases h with
    | keep _ h =>
      rw [preorderPrunedLoop, dif_pos hlt, dif_neg hs, hx]
      exact ih ((h.set hlt).children x.edges.targets)
    | drop ht _ => exact absurd (Array.getElem?_eq_some_iff.1 ht).2 hs
  | case5 seen order s stack hlt =>
    cases h with
    | keep _ h => rw [preorderPrunedLoop, dif_neg hlt]
    | drop ht _ => exact absurd (Array.getElem?_eq_some_iff.1 ht).1 hlt

/-- **Looking ahead does not change the order of the first visits.** -/
theorem preorderPruned_eq (a : Arena σ) (root : StateId) :
    a.preorderPruned root = a.preorder root :=
  preorderPrunedLoop_eq (.keep root .nil)

/-! ## The states that are left -/

/-- The second list of tasks is the first one without some that are about states which were met. Of
these, `es` are not left at that time, so that an edge which closes a cycle leads to each of them. -/
inductive ThinnedTasks (marks : Array Mark) : List StateId → List Task → List Task → Prop
  | nil : ThinnedTasks marks [] [] []
  | enter (s : StateId) {es : List StateId} {tasks tasks' : List Task}
    (h : ThinnedTasks marks es tasks tasks') :
    ThinnedTasks marks es (.enter s :: tasks) (.enter s :: tasks')
  | leave {s : StateId} {es : List StateId} {tasks tasks' : List Task} (hs : s ∉ es)
    (h : ThinnedTasks marks es tasks tasks') :
    ThinnedTasks marks es (.leave s :: tasks) (.leave s :: tasks')
  | left {t : StateId} {es : List StateId} {tasks tasks' : List Task}
    (ht : marks[t.slot]? = some .left) (h : ThinnedTasks marks es tasks tasks') :
    ThinnedTasks marks es (.enter t :: tasks) tasks'
  | entered {t : StateId} {es : List StateId} {tasks tasks' : List Task}
    (ht : marks[t.slot]? = some .entered) (h : ThinnedTasks marks es tasks tasks') :
    ThinnedTasks marks (t :: es) (.enter t :: tasks) tasks'

namespace ThinnedTasks

theorem entered_of_mem (h : ThinnedTasks marks es tasks tasks') (ht : t ∈ es) :
    marks[t.slot]? = some .entered := by
  induction h with
  | nil => cases ht
  | enter _ _ ih => exact ih ht
  | leave _ _ ih => exact ih ht
  | left _ _ ih => exact ih ht
  | entered hu _ ih =>
    rcases List.mem_cons.1 ht with rfl | ht
    · exact hu
    · exact ih ht

/-- Tasks stay superfluous as long as the marks of their states stay. -/
theorem congr (h : ThinnedTasks marks es tasks tasks')
    (hleft : ∀ t : StateId, marks[t.slot]? = some .left → marks'[t.slot]? = some .left)
    (hentered : ∀ t ∈ es, marks'[t.slot]? = some .entered) :
    ThinnedTasks marks' es tasks tasks' := by
  induction h with
  | nil => exact .nil
  | enter s _ ih => exact .enter s (ih hentered)
  | leave hs _ ih => exact .leave hs (ih hentered)
  | left ht _ ih => exact .left (hleft _ ht) (ih hentered)
  | entered _ _ ih =>
    obtain ⟨ht, hentered⟩ := List.forall_mem_cons.1 hentered
    exact .entered ht (ih hentered)

/-- A state is left that no superfluous task relies on. -/
theorem setLeft (h : ThinnedTasks marks es tasks tasks') (hs : s ∉ es)
    (hlt : s.slot < marks.size) : ThinnedTasks (marks.set s.slot .left) es tasks tasks' := by
  refine h.congr (fun t ht => ?_) fun t ht => ?_
  · rw [Array.getElem?_set]
    split
    · rfl
    · exact ht
  · have hts : t ≠ s := fun he => hs (he ▸ ht)
    rw [Array.getElem?_set_ne hlt (slot_ne hts).symm]
    exact h.entered_of_mem ht

/-- A state is entered that was not met before. -/
theorem setEntered (h : ThinnedTasks marks es tasks tasks') (hlt : s.slot < marks.size)
    (hs : marks[s.slot] = .fresh) : ThinnedTasks (marks.set s.slot .entered) es tasks tasks' := by
  refine h.congr (fun t ht => ?_) fun t ht => ?_
  · have hts : t ≠ s := by
      rintro rfl
      rw [Array.getElem?_eq_getElem hlt, hs] at ht
      cases ht
    rw [Array.getElem?_set_ne hlt (slot_ne hts).symm]
    exact ht
  · rw [Array.getElem?_set]
    split
    · rfl
    · exact h.entered_of_mem ht

/-- The children of a state are put on both lists, those apart on the second that were met. -/
theorem children (h : ThinnedTasks marks es tasks tasks') (ts : List StateId) :
    ThinnedTasks marks (ts.filter (fun t => marks[t.slot]? = some .entered) ++ es)
      (ts.map .enter ++ tasks)
      ((ts.filter fun t => marks[t.slot]? ≠ some .entered ∧ marks[t.slot]? ≠ some .left).map .enter ++
        tasks') := by
  induction ts with
  | nil => exact h
  | cons t ts ih =>
    rw [List.map_cons, List.cons_append]
    by_cases ht : marks[t.slot]? = some .entered
    · rw [List.filter_cons_of_pos (by simpa using ht), List.filter_cons_of_neg (by simp [ht])]
      exact .entered ht ih
    · rw [List.filter_cons_of_neg (by simpa using ht)]
      by_cases ht' : marks[t.slot]? = some .left
      · rw [List.filter_cons_of_neg (by simp [ht'])]
        exact .left ht' ih
      · rw [List.filter_cons_of_pos (by simp [ht, ht'])]
        exact .enter t ih

/-- The task to enter a state that was not met is on both lists, and no superfluous task is about the
state. -/
theorem of_fresh (h : ThinnedTasks marks es (.enter s :: tasks) tasks')
    (hs : marks[s.slot]? = some .fresh) :
    s ∉ es ∧ ∃ rest, tasks' = .enter s :: rest ∧ ThinnedTasks marks es tasks rest := by
  refine ⟨fun hmem => ?_, ?_⟩
  · rw [h.entered_of_mem hmem] at hs
    cases hs
  · cases h with
    | enter _ h => exact ⟨_, rfl, h⟩
    | left ht _ =>
      rw [ht] at hs
      cases hs
    | entered ht _ =>
      rw [ht] at hs
      cases hs

end ThinnedTasks

/-- No superfluous task relies on an edge that closes a cycle if none did and none is added. -/
theorem isEmpty_filter_append (p : StateId → Prop) [DecidablePred p] (ts es : List StateId) :
    (ts.filter (fun t => p t) ++ es).isEmpty = (es.isEmpty && !ts.any fun t => p t) := by
  rw [Bool.eq_iff_iff]
  simp [and_comm]

theorem postorderPrunedLoop_eq (h : ThinnedTasks marks es tasks tasks') :
    a.postorderPrunedLoop marks order (isAcyclic && es.isEmpty) tasks' =
      a.postorderLoop marks order isAcyclic tasks := by
  fun_induction postorderLoop a marks order isAcyclic tasks generalizing es tasks' with
  | case1 marks order isAcyclic =>
    cases h
    rw [postorderPrunedLoop, List.isEmpty_nil, Bool.and_true]
  | case2 marks order isAcyclic s tasks hlt ih =>
    cases h with
    | leave hs h => rw [postorderPrunedLoop, dif_pos hlt, ih (h.setLeft hs hlt)]
  | case3 marks order isAcyclic s tasks hlt =>
    cases h with
    | leave _ h => rw [postorderPrunedLoop, dif_neg hlt]
  | case4 marks order isAcyclic s tasks hlt hm ih =>
    cases h with
    | enter _ h => rw [postorderPrunedLoop_of_left hlt hm, ih h]
    | left _ h => exact ih h
    | entered ht _ => simp [hlt, hm] at ht
  | case5 marks order isAcyclic s tasks hlt hm ih =>
    cases h with
    | enter _ h => rw [postorderPrunedLoop_of_entered hlt hm, ← ih h, Bool.false_and]
    | left ht _ => simp [hlt, hm] at ht
    | entered _ h => rw [List.isEmpty_cons, Bool.and_false, ← ih h, Bool.false_and]
  | case6 marks order isAcyclic s tasks hlt hm f hx =>
    obtain ⟨-, rest, rfl, -⟩ := h.of_fresh (Array.getElem?_eq_some_iff.2 ⟨hlt, hm⟩)
    rw [postorderPrunedLoop_of_fresh hlt hm, hx]
  | case7 marks order isAcyclic s tasks hlt hm x hx ih =>
    obtain ⟨hs, rest, rfl, hrest⟩ := h.of_fresh (Array.getElem?_eq_some_iff.2 ⟨hlt, hm⟩)
    rw [postorderPrunedLoop_of_fresh hlt hm, hx,
      ← ih ((ThinnedTasks.leave hs (hrest.setEntered hlt hm)).children x.edges.targets)]
    dsimp only
    rw [Bool.and_assoc, isEmpty_filter_append]
  | case8 marks order isAcyclic s tasks hlt =>
    cases h with
    | enter _ h => rw [postorderPrunedLoop, dif_neg hlt]
    | left ht _ => exact absurd (Array.getElem?_eq_some_iff.1 ht).1 hlt
    | entered ht _ => exact absurd (Array.getElem?_eq_some_iff.1 ht).1 hlt

/-- **Looking ahead changes neither the order in which states are left nor whether a cycle is met.** -/
theorem postorderPruned_eq (a : Arena σ) (root : StateId) :
    a.postorderPruned root = a.postorder root := by
  -- at first no task is superfluous, so the flags agree
  show a.postorderPrunedLoop _ [] (true && ([] : List StateId).isEmpty) [.enter root] = _
  exact postorderPrunedLoop_eq (.enter root .nil)

end WordGraph.Arena
