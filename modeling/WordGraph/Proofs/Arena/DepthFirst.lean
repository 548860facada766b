import WordGraph.Arena.DepthFirst
import WordGraph.Proofs.Arena.Preorder

/-!
# A stack does what the recursion does

The searches of this library keep a stack of what is still to do. Where the recursion visits a list of
states, such a search does the same to its marks and its order and goes on with the rest of its stack;
this is shown along the recursion, whose answer is all that has to be known about it. On a graph in
which every state that can be reached exists the recursion does have an answer.

* `exists_depthFirstFrom` — the recursion has an answer
* `preorder_of_depthFirst` — `preorder` lists the states in the order in which they are met
* `postorder_of_depthFirst` — `postorder` lists them in the order in which they are left
-/

namespace WordGraph.Arena

variable {σ : Type} [Symbol σ] {a : Arena σ} {root s t : StateId} {x : State σ} {d d' : DepthFirst}
  {ss stack order : List StateId} {seen : Array Bool} {marks : Array Mark} {isAcyclic : Bool}
  {tasks : List Task} {p : StateId → Prop}

/-! ## What the recursion comes to -/

/-- A search marks further states and leaves just these. -/
theorem exists_append_of_depthFirstFrom (h : a.depthFirstFrom d ss = some d') :
    ∃ new gone, d'.met = d.met ++ new ∧ d'.left = d.left ++ gone ∧ gone.Perm new := by
  refine depthFirstFrom_induction (motive := fun d _ d' => ∃ new gone, d'.met = d.met ++ new ∧
    d'.left = d.left ++ gone ∧ gone.Perm new) ?nil ?skip ?visit h
  case nil => exact fun d => ⟨[], [], by simp, by simp, .nil⟩
  case skip => exact fun _ _ _ _ _ ih => ih
  case visit =>
    rintro d s ss x d₁ d' - - - ⟨new₁, gone₁, hmet₁, hleft₁, hperm₁⟩ ⟨new, gone, hmet, hleft, hperm⟩
    refine ⟨s :: (new₁ ++ new), gone₁ ++ s :: gone, ?_, ?_, ?_⟩
    · rw [hmet, hmet₁]
      simp
    · rw [hleft, hleft₁]
      simp
    · exact List.perm_middle.trans ((hperm₁.append hperm).cons s)

/-- The states that are left at the end are those that were met. -/
theorem perm_of_depthFirst (h : a.depthFirst root = some d) : d.left.Perm d.met := by
  obtain ⟨new, gone, hmet, hleft, hperm⟩ := exists_append_of_depthFirstFrom h
  rw [hmet, hleft]
  exact hperm

/-- The recursion has an answer where it comes upon states only: whenever it goes deeper, a slot has
been marked. -/
theorem exists_depthFirstFrom (hp : ∀ {s c t}, p s → a.Edge s c t → p t)
    (hl : ∀ s, p s → a.isLive s) (hs : ∀ s ∈ ss, p s) :
    ∃ d', a.depthFirstFrom d ss = some d' := by
  induction hn : a.unmarked d using Nat.strong_induction_on generalizing d ss with
  | h n ih =>
    subst hn
    induction ss with
    | nil => exact ⟨d, depthFirstFrom_nil a d⟩
    | cons s ss ihss =>
      obtain ⟨hps, hpss⟩ := List.forall_mem_cons.1 hs
      by_cases hmem : s ∈ d.met
      · rw [depthFirstFrom_of_mem hmem]
        exact ihss hpss
      · obtain ⟨x, hx⟩ := isLive_iff.1 (hl s hps)
        have htargets : ∀ t ∈ x.edges.targets, p t := by
          intro t ht
          obtain ⟨⟨c, t⟩, he, rfl⟩ := List.mem_map.1 ht
          exact hp hps ((edge_iff_mem hx).2 he)
        have hless : a.unmarked ⟨d.met ++ [s], d.left⟩ < a.unmarked d :=
          unmarked_lt hx hmem (List.Subset.refl _)
        obtain ⟨d₁, h₁⟩ := ih _ hless htargets rfl
        have hless₁ : a.unmarked ⟨d₁.met, d₁.left ++ [s]⟩ < a.unmarked d :=
          unmarked_lt hx hmem (met_subset_of_depthFirstFrom h₁)
        obtain ⟨d', h'⟩ := ih _ hless₁ hpss rfl
        exact ⟨d', by rw [depthFirstFrom_of_not_mem hmem hx, h₁, Option.bind_some, h']⟩

/-! ## The searches with a stack -/

/-- The marks of a search, by slot, tell which states it has met. -/
structure Marked {α : Type} (a : Arena σ) (isMet : α → Prop) (marks : Array α)
    (met : List StateId) : Prop where
  size_eq : marks.size = a.slotCount
  slot_lt : ∀ s ∈ met, s.slot < marks.size
  isMet_iff : ∀ {s : StateId} (h : s.slot < marks.size), isMet marks[s.slot] ↔ s ∈ met

namespace Marked

variable {α : Type} {isMet : α → Prop} {marks : Array α} {met : List StateId} {m : α}

theorem start (a : Arena σ) (h : ¬isMet m) :
    a.Marked isMet (Array.replicate a.slotCount m) [] where
  size_eq := Array.size_replicate
  slot_lt := by simp
  isMet_iff hlt := by simp [h]

theorem slot_lt_of_get? (h : a.Marked isMet marks met) (hx : a.get? s = some x) :
    s.slot < marks.size := by
  rw [h.size_eq]
  exact Arena.slot_lt_of_get? hx

/-- A state gets a mark that says that it was met. -/
theorem set (h : a.Marked isMet marks met) (hlt : s.slot < marks.size) (hm : isMet m) :
    a.Marked isMet (marks.set s.slot m) (met ++ [s]) where
  size_eq := by rw [Array.size_set, h.size_eq]
  slot_lt t ht := by
    rw [Array.size_set]
    rcases List.mem_append.1 ht with ht | ht
    · exact h.slot_lt t ht
    · rwa [List.mem_singleton.1 ht]
  isMet_iff {t} ht := by
    rw [Array.size_set] at ht
    by_cases hts : t = s
    · simp [hts, hm]
    · rw [Array.getElem_set_ne hlt ht (slot_ne hts).symm, h.isMet_iff ht]
      simp [hts]

/-- A state that was met gets another mark. -/
theorem remark (h : a.Marked isMet marks met) (hs : s ∈ met) (hm : isMet m) :
    a.Marked isMet (marks.set s.slot m (h.slot_lt s hs)) met where
  size_eq := by rw [Array.size_set, h.size_eq]
  slot_lt t ht := by
    rw [Array.size_set]
    exact h.slot_lt t ht
  isMet_iff {t} ht := by
    rw [Array.size_set] at ht
    by_cases hts : t = s
    · subst hts
      simp [hs, hm]
    · rw [Array.getElem_set_ne _ ht (slot_ne hts).symm, h.isMet_iff ht]

end Marked

/-- A search with a stack does what the recursion does, and goes on with what is left on its stack. -/
theorem preorderLoop_of_depthFirstFrom (h : a.depthFirstFrom d ss = some d') :
    ∀ {seen : Array Bool} (stack : List StateId), a.Marked (· = true) seen d.met →
      ∃ seen', a.Marked (· = true) seen' d'.met ∧
        a.preorderLoop seen d.met.reverse (ss ++ stack) =
          a.preorderLoop seen' d'.met.reverse stack := by
  refine depthFirstFrom_induction (motive := fun d ss d' => ∀ {seen : Array Bool}
    (stack : List StateId), a.Marked (· = true) seen d.met →
      ∃ seen', a.Marked (· = true) seen' d'.met ∧
        a.preorderLoop seen d.met.reverse (ss ++ stack) =
          a.preorderLoop seen' d'.met.reverse stack) ?nil ?skip ?visit h
  case nil => exact fun d seen stack hm => ⟨seen, hm, rfl⟩
  case skip =>
    intro d s ss d' hs ih seen stack hm
    obtain ⟨seen', hm', hrun⟩ := ih stack hm
    have hlt := hm.slot_lt s hs
    refine ⟨seen', hm', ?_⟩
    rw [List.cons_append, preorderLoop, dif_pos hlt, dif_pos ((hm.isMet_iff hlt).2 hs), hrun]
  case visit =>
    intro d s ss x d₁ d' hs hx _ ih₁ ih seen stack hm
    have hlt := hm.slot_lt_of_get? hx
    obtain ⟨seen₁, hm₁, hrun₁⟩ := ih₁ (ss ++ stack) (hm.set hlt rfl)
    obtain ⟨seen', hm', hrun⟩ := ih stack hm₁
    refine ⟨seen', hm', ?_⟩
    rw [List.cons_append, preorderLoop, dif_pos hlt, dif_neg fun hs' => hs ((hm.isMet_iff hlt).1 hs'),
      state_eq_ok_iff.2 hx]
    rw [List.reverse_append] at hrun₁
    exact hrun₁.trans hrun

/-- So does a search that lists its states when it leaves them. -/
theorem postorderLoop_of_depthFirstFrom (h : a.depthFirstFrom d ss = some d') :
    ∀ {marks : Array Mark} (isAcyclic : Bool) (tasks : List Task), a.Marked (· ≠ .fresh) marks d.met →
      ∃ marks' isAcyclic', a.Marked (· ≠ .fresh) marks' d'.met ∧
        a.postorderLoop marks d.left.reverse isAcyclic (ss.map .enter ++ tasks) =
          a.postorderLoop marks' d'.left.reverse isAcyclic' tasks := by
  refine depthFirstFrom_induction (motive := fun d ss d' => ∀ {marks : Array Mark} (isAcyclic : Bool)
    (tasks : List Task), a.Marked (· ≠ .fresh) marks d.met →
      ∃ marks' isAcyclic', a.Marked (· ≠ .fresh) marks' d'.met ∧
        a.postorderLoop marks d.left.reverse isAcyclic (ss.map .enter ++ tasks) =
          a.postorderLoop marks' d'.left.reverse isAcyclic' tasks) ?nil ?skip ?visit h
  case nil => exact fun d marks isAcyclic tasks hm => ⟨marks, isAcyclic, hm, rfl⟩
  case skip =>
    intro d s ss d' hs ih marks isAcyclic tasks hm
    have hlt := hm.slot_lt s hs
    have hmet := (hm.isMet_iff hlt).2 hs
    rw [List.map_cons, List.cons_append, postorderLoop, dif_pos hlt]
    split
    · exact ih isAcyclic tasks hm
    · exact ih false tasks hm
    · next hfresh => exact absurd hfresh hmet
  case visit =>
    intro d s ss x d₁ d' hs hx h₁ ih₁ ih marks isAcyclic tasks hm
    have hlt := hm.slot_lt_of_get? hx
    have hfresh : marks[s.slot] = .fresh := by
      by_contra hne
      exact hs ((hm.isMet_iff hlt).1 hne)
    obtain ⟨marks₁, isAcyclic₁, hm₁, hrun₁⟩ := ih₁ isAcyclic (.leave s :: (ss.map .enter ++ tasks))
      (hm.set (m := .entered) hlt (by decide))
    have hs₁ : s ∈ d₁.met := met_subset_of_depthFirstFrom h₁ (by simp)
    obtain ⟨marks', isAcyclic', hm', hrun⟩ := ih isAcyclic₁ tasks
      (hm₁.remark (m := .left) hs₁ (by decide))
    refine ⟨marks', isAcyclic', hm', ?_⟩
    rw [List.map_cons, List.cons_append, postorderLoop, dif_pos hlt]
    split
    · next hleft => simp [hfresh] at hleft
    · next hentered => simp [hfresh] at hentered
    · rw [state_eq_ok_iff.2 hx]
      dsimp only
      rw [hrun₁, postorderLoop, dif_pos (hm₁.slot_lt s hs₁), ← hrun, List.reverse_append]
      rfl

/-- **The order of the first visits is that of the recursion.** -/
theorem preorder_of_depthFirst (h : a.depthFirst root = some d) : a.preorder root = .ok d.met := by
  obtain ⟨seen, -, hrun⟩ := preorderLoop_of_depthFirstFrom h [] (.start a (m := false) (by decide))
  rw [preorder]
  refine hrun.trans ?_
  rw [preorderLoop, List.reverse_reverse]

/-- **The order in which the states are left is that of the recursion**, also if there is a cycle. -/
theorem postorder_of_depthFirst (h : a.depthFirst root = some d) :
    ∃ isAcyclic, a.postorder root = .ok ⟨d.left, isAcyclic⟩ := by
  obtain ⟨marks, isAcyclic, -, hrun⟩ :=
    postorderLoop_of_depthFirstFrom h true [] (.start a (m := .fresh) (by decide))
  refine ⟨isAcyclic, ?_⟩
  rw [postorder]
  refine hrun.trans ?_
  rw [postorderLoop, List.reverse_reverse]

end WordGraph.Arena
