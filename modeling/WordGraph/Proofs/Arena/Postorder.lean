import WordGraph.Arena.Postorder
import WordGraph.Proofs.Arena.Edge

/-!
# The order in which a search leaves the states

A search that meets no cycle leaves every state that can be reached once, and behind all states that
its edges lead to. A search of a graph without cycles meets none.

* `Searching` — what marks, order and tasks of a search have to do with each other
* `Topological`, `ChildrenFirst` — a list of the states in reach, children first
* `topological_of_postorder` — a search that meets no cycle answers such a list
* `Intact.exists_postorder` — a search of a graph without dangling edges has an answer
* `Dag.exists_postorder` — a search of a graph without cycles meets none
-/

namespace WordGraph.Arena

variable {σ : Type} [Symbol σ] {a : Arena σ} {root s t u : StateId} {c : σ} {x : State σ}
  {marks : Array Mark} {order out ss : List StateId} {tasks : List Task} {isAcyclic : Bool}

/-- The state that a task is about. -/
def taskState : Task → StateId
  | .enter s => s
  | .leave s => s

/-- A list of states, the last one first, has each state before its children. -/
def ChildrenBehind (a : Arena σ) : List StateId → Prop
  | [] => True
  | s :: order => (∀ c t, a.Edge s c t → t ∈ order) ∧ a.ChildrenBehind order

/-- When a state is left, each of its children has been taken care of: it has the property `p`, or a
task in front of that one is about it. -/
def Pending (a : Arena σ) : (StateId → Prop) → List Task → Prop
  | _, [] => True
  | p, .enter s :: tasks => a.Pending (fun t => p t ∨ t = s) tasks
  | p, .leave s :: tasks => (∀ c t, a.Edge s c t → p t) ∧ a.Pending (fun t => p t ∨ t = s) tasks

theorem Pending.mono {p q : StateId → Prop} (h : a.Pending p tasks) (hpq : ∀ t, p t → q t) :
    a.Pending q tasks := by
  induction tasks generalizing p q with
  | nil => exact h
  | cons τ tasks ih =>
    cases τ with
    | enter s => exact ih h fun t ht => ht.imp_left (hpq t)
    | leave s => exact ⟨fun c t he => hpq t (h.1 c t he), ih h.2 fun t ht => ht.imp_left (hpq t)⟩

theorem pending_enter_append_iff {p : StateId → Prop} :
    a.Pending p (ss.map .enter ++ tasks) ↔ a.Pending (fun t => p t ∨ t ∈ ss) tasks := by
  induction ss generalizing p with
  | nil => simp
  | cons s ss ih =>
    rw [List.map_cons, List.cons_append, Pending, ih]
    simp only [List.mem_cons, or_assoc]

/-- What marks, order and tasks of a search have to do with each other. -/
structure Searching (a : Arena σ) (marks : Array Mark) (order : List StateId)
    (tasks : List Task) : Prop where
  size_eq : marks.size = a.slotCount
  left_iff : ∀ {s : StateId} (h : s.slot < marks.size), marks[s.slot] = .left ↔ s ∈ order
  entered_iff : ∀ {s : StateId} (h : s.slot < marks.size),
    marks[s.slot] = .entered ↔ .leave s ∈ tasks
  nodup : order.Nodup
  leave_once : tasks.Pairwise fun τ τ' => ∀ s, τ = .leave s → τ' ≠ .leave s
  childrenBehind : a.ChildrenBehind order
  pending : a.Pending (· ∈ order) tasks

theorem slot_ne (h : s ≠ t) : s.slot ≠ t.slot := by
  intro he
  cases s
  cases t
  exact h (congrArg StateId.mk he)

namespace Searching

theorem start (a : Arena σ) (root : StateId) :
    a.Searching (Array.replicate a.slotCount .fresh) [] [.enter root] where
  size_eq := by simp
  left_iff h := by simp
  entered_iff h := by simp
  nodup := .nil
  leave_once := by simp
  childrenBehind := trivial
  pending := trivial

/-- A state is left. -/
theorem leave (hs : a.Searching marks order (.leave s :: tasks)) (h : s.slot < marks.size) :
    a.Searching (marks.set s.slot .left) (s :: order) tasks where
  size_eq := by rw [Array.size_set, hs.size_eq]
  left_iff {t} ht := by
    rw [Array.size_set] at ht
    by_cases hts : t = s
    · simp [hts]
    · rw [Array.getElem_set_ne h ht (slot_ne hts).symm, hs.left_iff ht]
      simp [hts]
  entered_iff {t} ht := by
    rw [Array.size_set] at ht
    by_cases hts : t = s
    · subst hts
      simp only [Array.getElem_set_self, reduceCtorEq, false_iff]
      exact fun hm => (List.pairwise_cons.1 hs.leave_once).1 _ hm t rfl rfl
    · rw [Array.getElem_set_ne h ht (slot_ne hts).symm, hs.entered_iff ht]
      simp [hts]
  nodup := by
    refine List.nodup_cons.2 ⟨fun hm => ?_, hs.nodup⟩
    have hleft := (hs.left_iff h).2 hm
    rw [(hs.entered_iff h).2 (List.mem_cons_self ..)] at hleft
    cases hleft
  leave_once := (List.pairwise_cons.1 hs.leave_once).2
  childrenBehind := ⟨hs.pending.1, hs.childrenBehind⟩
  pending := hs.pending.2.mono fun t ht => List.mem_cons.2 ht.symm

/-- A state that was left is not entered again. -/
theorem skip (hs : a.Searching marks order (.enter s :: tasks)) (h : s.slot < marks.size)
    (hm : marks[s.slot] = .left) : a.Searching marks order tasks where
  size_eq := hs.size_eq
  left_iff ht := hs.left_iff ht
  entered_iff ht := by
    rw [hs.entered_iff ht]
    simp
  nodup := hs.nodup
  leave_once := (List.pairwise_cons.1 hs.leave_once).2
  childrenBehind := hs.childrenBehind
  pending := by
    refine Pending.mono hs.pending fun t ht => ?_
    rcases ht with ht | rfl
    · exact ht
    · exact (hs.left_iff h).1 hm

/-- A state is entered. -/
theorem enter (hs : a.Searching marks order (.enter s :: tasks)) (h : s.slot < marks.size)
    (hm : marks[s.slot] = .fresh) (hx : a.get? s = some x) :
    a.Searching (marks.set s.slot .entered) order
      (x.edges.targets.map .enter ++ .leave s :: tasks) where
  size_eq := by rw [Array.size_set, hs.size_eq]
  left_iff {t} ht := by
    rw [Array.size_set] at ht
    by_cases hts : t = s
    · subst hts
      rw [← hs.left_iff h, hm]
      simp
    · rw [Array.getElem_set_ne h ht (slot_ne hts).symm, hs.left_iff ht]
  entered_iff {t} ht := by
    rw [Array.size_set] at ht
    by_cases hts : t = s
    · simp [hts]
    · rw [Array.getElem_set_ne h ht (slot_ne hts).symm, hs.entered_iff ht]
      simp [hts]
  nodup := hs.nodup
  leave_once := by
    refine List.pairwise_append.2 ⟨?_, List.pairwise_cons.2 ⟨?_, ?_⟩, ?_⟩
    · exact List.Pairwise.map _ (fun _ _ h => h)
        (List.pairwise_of_forall fun _ _ _ he => nomatch he)
    · rintro τ hτ u hu rfl
      cases hu
      have hent := (hs.entered_iff h).2 (List.mem_cons_of_mem _ hτ)
      rw [hm] at hent
      cases hent
    · exact (List.pairwise_cons.1 hs.leave_once).2
    · rintro τ hτ _ - u rfl
      obtain ⟨_, -, hτ⟩ := List.mem_map.1 hτ
      cases hτ
  childrenBehind := hs.childrenBehind
  pending := by
    refine pending_enter_append_iff.2 ⟨fun c t he => .inr ?_, ?_⟩
    · exact List.mem_map_of_mem ((edge_iff_mem hx).1 he)
    · exact Pending.mono hs.pending fun t ht => ht.imp_left .inl

end Searching

/-! ## What a search answers -/

/-- Once a cycle was met, the answer tells so. -/
theorem isAcyclic_of_postorderLoop {post : Postorder}
    (h : a.postorderLoop marks order isAcyclic tasks = .ok post) (hp : post.isAcyclic) :
    isAcyclic := by
  fun_induction postorderLoop a marks order isAcyclic tasks with
  | case1 =>
    cases h
    exact hp
  | case2 _ _ _ _ _ _ ih => exact ih h
  | case3 => cases h
  | case4 _ _ _ _ _ _ _ ih => exact ih h
  | case5 _ _ _ _ _ _ _ ih => exact absurd (ih h) (by simp)
  | case6 => cases h
  | case7 _ _ _ _ _ _ _ _ _ ih => exact ih h
  | case8 => cases h

/-- A list of the states in reach, each of them behind all of its children. -/
structure Topological (a : Arena σ) (root : StateId) (order : List StateId) : Prop where
  nodup : order.Nodup
  mem_iff : ∀ {s}, s ∈ order ↔ a.Reaches root s
  children_first : ∀ {l₁ s l₂}, order = l₁ ++ s :: l₂ → ∀ {c t}, a.Edge s c t → t ∈ l₁

/-- In a list of states each comes behind its children, those apart that were dealt with before. -/
def ChildrenFirst (a : Arena σ) : List StateId → List StateId → Prop
  | _, [] => True
  | done, s :: order => (∀ c t, a.Edge s c t → t ∈ done) ∧ a.ChildrenFirst (s :: done) order

theorem Topological.childrenFirst (h : a.Topological root order) : a.ChildrenFirst [] order := by
  suffices hrest : ∀ l₁ l₂, order = l₁ ++ l₂ → a.ChildrenFirst l₁.reverse l₂ from
    hrest [] order rfl
  intro l₁ l₂ hsplit
  induction l₂ generalizing l₁ with
  | nil => trivial
  | cons s l₂ ih =>
    refine ⟨fun c t he => List.mem_reverse.2 (h.children_first hsplit he), ?_⟩
    have hrest := ih (l₁ ++ [s]) (by simp [hsplit])
    rwa [List.reverse_concat] at hrest

/-- Along an edge the place in a list with the children first goes down. -/
theorem Topological.idxOf_lt (h : a.Topological root order) (hs : a.Reaches root s)
    (he : a.Edge s c t) : order.idxOf t < order.idxOf s := by
  obtain ⟨l₁, l₂, hsplit⟩ := List.append_of_mem (h.mem_iff.2 hs)
  have ht : t ∈ l₁ := h.children_first hsplit he
  have hnot : s ∉ l₁ := by
    have hnd := h.nodup
    rw [hsplit, List.nodup_append] at hnd
    exact fun hm => hnd.2.2 s hm s (List.mem_cons_self ..) rfl
  rw [hsplit, List.idxOf_append_of_mem ht, List.idxOf_append_of_notMem hnot, List.idxOf_cons_self]
  exact Nat.lt_add_right _ (List.idxOf_lt_length_of_mem ht)

theorem ChildrenBehind.of_append (h : a.ChildrenBehind (ss ++ s :: order)) (he : a.Edge s c t) :
    t ∈ order := by
  induction ss with
  | nil => exact h.1 c t he
  | cons _ ss ih => exact ih h.2

/-- A search that meets no cycle lists what was listed and what its tasks lead to. -/
theorem postorderLoop_spec (hs : a.Searching marks order tasks)
    (h : a.postorderLoop marks order isAcyclic tasks = .ok ⟨out, true⟩) :
    out.Nodup ∧ a.ChildrenBehind out.reverse ∧ (∀ s ∈ order, s ∈ out) ∧
      (∀ τ ∈ tasks, taskState τ ∈ out) ∧
      ∀ s ∈ out, s ∈ order ∨ ∃ τ ∈ tasks, a.Reaches (taskState τ) s := by
  fun_induction postorderLoop a marks order isAcyclic tasks with
  | case1 =>
    cases h
    refine ⟨List.nodup_reverse.2 hs.nodup, ?_, fun s hm => List.mem_reverse.2 hm, by simp, ?_⟩
    · rw [List.reverse_reverse]
      exact hs.childrenBehind
    · exact fun s hm => .inl (List.mem_reverse.1 hm)
  | case2 marks order isAcyclic s tasks hlt ih =>
    obtain ⟨hnd, hch, hord, htasks, hout⟩ := ih (hs.leave hlt) h
    refine ⟨hnd, hch, fun t ht => hord t (List.mem_cons_of_mem _ ht), ?_, fun t ht => ?_⟩
    · exact List.forall_mem_cons.2 ⟨hord s (List.mem_cons_self ..), htasks⟩
    · rcases hout t ht with ht | ⟨τ, hτ, hr⟩
      · rcases List.mem_cons.1 ht with rfl | ht
        · exact .inr ⟨_, List.mem_cons_self .., .refl _⟩
        · exact .inl ht
      · exact .inr ⟨τ, List.mem_cons_of_mem _ hτ, hr⟩
  | case3 => cases h
  | case4 marks order isAcyclic s tasks hlt hm ih =>
    obtain ⟨hnd, hch, hord, htasks, hout⟩ := ih (hs.skip hlt hm) h
    refine ⟨hnd, hch, hord, ?_, fun t ht => ?_⟩
    · exact List.forall_mem_cons.2 ⟨hord s ((hs.left_iff hlt).1 hm), htasks⟩
    · exact (hout t ht).imp_right fun ⟨τ, hτ, hr⟩ => ⟨τ, List.mem_cons_of_mem _ hτ, hr⟩
  | case5 => exact absurd (isAcyclic_of_postorderLoop h rfl) (by simp)
  | case6 => cases h
  | case7 marks order isAcyclic s tasks hlt hm x hx ih =>
    have hx := state_eq_ok_iff.1 hx
    obtain ⟨hnd, hch, hord, htasks, hout⟩ := ih (hs.enter hlt hm hx) h
    have hself := htasks (.leave s) (by simp)
    refine ⟨hnd, hch, hord, ?_, fun t ht => ?_⟩
    · exact List.forall_mem_cons.2 ⟨hself, fun τ hτ => htasks τ (by simp [hτ])⟩
    · rcases hout t ht with ht | ⟨τ, hτ, hr⟩
      · exact .inl ht
      · right
        rcases List.mem_append.1 hτ with hτ | hτ
        · obtain ⟨u, hu, rfl⟩ := List.mem_map.1 hτ
          obtain ⟨⟨c, u⟩, he, rfl⟩ := List.mem_map.1 hu
          exact ⟨_, List.mem_cons_self .., ((edge_iff_mem hx).2 he).reaches.trans hr⟩
        · rcases List.mem_cons.1 hτ with rfl | hτ
          · exact ⟨_, List.mem_cons_self .., hr⟩
          · exact ⟨τ, List.mem_cons_of_mem _ hτ, hr⟩
  | case8 => cases h

/-- A list that has the children of its members has what can be reached from them. -/
theorem mem_of_path (hc : ∀ {s c t}, s ∈ order → a.Edge s c t → t ∈ order) (hs : s ∈ order)
    {w : Word σ} (h : a.Path s w t) : t ∈ order := by
  induction w generalizing s with
  | nil => exact path_nil_iff.1 h ▸ hs
  | cons c w ih =>
    obtain ⟨u, he, hp⟩ := path_cons_iff_edge.1 h
    exact ih (hc hs he) hp

/-- **A search that meets no cycle lists the states in reach, children first.** -/
theorem topological_of_postorder (h : a.postorder root = .ok ⟨order, true⟩) :
    a.Topological root order := by
  obtain ⟨hnd, hch, -, htasks, hout⟩ := postorderLoop_spec (.start a root) h
  have hroot : root ∈ order := htasks (.enter root) (by simp)
  have hfirst : ∀ {l₁ s l₂}, order = l₁ ++ s :: l₂ → ∀ {c t}, a.Edge s c t → t ∈ l₁ := by
    intro l₁ s l₂ hsplit c t he
    rw [hsplit, List.reverse_append, List.reverse_cons, List.append_assoc] at hch
    exact List.mem_reverse.1 (hch.of_append he)
  refine ⟨hnd, fun {s} => ⟨fun hs => ?_, ?_⟩, hfirst⟩
  · rcases hout s hs with hs | ⟨τ, hτ, hr⟩
    · cases hs
    · rw [List.mem_singleton.1 hτ] at hr
      exact hr
  · rintro ⟨w, hw⟩
    refine mem_of_path (fun hs he => ?_) hroot hw
    obtain ⟨l₁, l₂, hsplit⟩ := List.append_of_mem hs
    rw [hsplit]
    exact List.mem_append_left _ (hfirst hsplit he)

/-- A search of living states goes on without an error. -/
theorem exists_postorderLoop {p : StateId → Prop} (hp : ∀ {s c t}, p s → a.Edge s c t → p t)
    (hl : ∀ s, p s → a.isLive s) (hsize : marks.size = a.slotCount)
    (htasks : ∀ τ ∈ tasks, p (taskState τ)) :
    ∃ post, a.postorderLoop marks order isAcyclic tasks = .ok post := by
  have hslot : ∀ {s}, p s → s.slot < marks.size := by
    intro s hs
    obtain ⟨x, hx⟩ := isLive_iff.1 (hl s hs)
    rw [hsize]
    exact slot_lt_of_get? hx
  fun_induction postorderLoop a marks order isAcyclic tasks with
  | case1 => exact ⟨_, rfl⟩
  | case2 _ _ _ _ _ _ ih =>
    exact ih (by rw [Array.size_set, hsize]) (List.forall_mem_cons.1 htasks).2
      fun hs => by rw [Array.size_set]; exact hslot hs
  | case3 _ _ _ s _ hlt => exact absurd (hslot (htasks _ (List.mem_cons_self ..))) hlt
  | case4 _ _ _ _ _ _ _ ih => exact ih hsize (List.forall_mem_cons.1 htasks).2 hslot
  | case5 _ _ _ _ _ _ _ ih => exact ih hsize (List.forall_mem_cons.1 htasks).2 hslot
  | case6 _ _ _ s _ _ _ f hx =>
    obtain ⟨y, hy⟩ := isLive_iff.1 (hl _ (htasks _ (List.mem_cons_self ..)))
    rw [taskState, (state_eq_error_iff.1 hx).1] at hy
    cases hy
  | case7 marks order isAcyclic s tasks _ _ x hx ih =>
    have hx := state_eq_ok_iff.1 hx
    have hps : p s := htasks (.enter s) (List.mem_cons_self ..)
    refine ih (by rw [Array.size_set, hsize]) (fun τ hτ => ?_)
      fun hs => by rw [Array.size_set]; exact hslot hs
    rcases List.mem_append.1 hτ with hτ | hτ
    · obtain ⟨u, hu, rfl⟩ := List.mem_map.1 hτ
      obtain ⟨⟨c, u⟩, he, rfl⟩ := List.mem_map.1 hu
      exact hp hps ((edge_iff_mem hx).2 he)
    · rcases List.mem_cons.1 hτ with rfl | hτ
      · exact hps
      · exact htasks τ (List.mem_cons_of_mem _ hτ)
  | case8 _ _ _ s _ hlt => exact absurd (hslot (htasks _ (List.mem_cons_self ..))) hlt

/-- A search of a graph without dangling edges has an answer, also if it meets a cycle. -/
theorem Intact.exists_postorder (h : a.Intact root) : ∃ post, a.postorder root = .ok post :=
  exists_postorderLoop (p := a.Reaches root) (fun hs he => hs.trans he.reaches) h (by simp)
    (by simp [taskState, Reaches.refl])

/-- A search meets no cycle where a rank falls along the edges. -/
theorem isAcyclic_of_rank {p : StateId → Prop} {rank : StateId → Nat} {post : Postorder}
    (hp : ∀ {s c t}, p s → a.Edge s c t → p t)
    (hr : ∀ {s c t}, p s → a.Edge s c t → rank t < rank s) (hs : a.Searching marks order tasks)
    (htasks : ∀ τ ∈ tasks, p (taskState τ))
    (hrank : tasks.Pairwise fun τ τ' => ∀ s, τ' = .leave s → rank (taskState τ) < rank s)
    (h : a.postorderLoop marks order isAcyclic tasks = .ok post) (hb : isAcyclic) :
    post.isAcyclic := by
  fun_induction postorderLoop a marks order isAcyclic tasks with
  | case1 =>
    cases h
    exact hb
  | case2 marks order isAcyclic s tasks hlt ih =>
    exact ih (hs.leave hlt) (List.forall_mem_cons.1 htasks).2 (List.pairwise_cons.1 hrank).2 h hb
  | case3 => cases h
  | case4 marks order isAcyclic s tasks hlt hm ih =>
    exact ih (hs.skip hlt hm) (List.forall_mem_cons.1 htasks).2 (List.pairwise_cons.1 hrank).2 h hb
  -- the rank of a state that is entered and not left is above that of the next task
  | case5 marks order isAcyclic s tasks hlt hm =>
    have hmem := (hs.entered_iff hlt).1 hm
    rw [List.mem_cons, or_iff_right (by simp)] at hmem
    exact absurd ((List.pairwise_cons.1 hrank).1 _ hmem s rfl) (Nat.lt_irrefl _)
  | case6 => cases h
  | case7 marks order isAcyclic s tasks hlt hm x hx ih =>
    have hx := state_eq_ok_iff.1 hx
    have hps : p s := htasks (.enter s) (List.mem_cons_self ..)
    have hedge : ∀ u ∈ x.edges.targets, ∃ c, a.Edge s c u := by
      intro u hu
      obtain ⟨⟨c, u⟩, he, rfl⟩ := List.mem_map.1 hu
      exact ⟨c, (edge_iff_mem hx).2 he⟩
    refine ih (hs.enter hlt hm hx) ?_ ?_ h hb
    · intro τ hτ
      rcases List.mem_append.1 hτ with hτ | hτ
      · obtain ⟨u, hu, rfl⟩ := List.mem_map.1 hτ
        obtain ⟨c, he⟩ := hedge u hu
        exact hp hps he
      · rcases List.mem_cons.1 hτ with rfl | hτ
        · exact hps
        · exact htasks τ (List.mem_cons_of_mem _ hτ)
    · have hrest := List.pairwise_cons.1 hrank
      refine List.pairwise_append.2 ⟨?_, List.pairwise_cons.2 ⟨hrest.1, hrest.2⟩, ?_⟩
      · exact List.Pairwise.map _ (fun _ _ h => h)
          (List.pairwise_of_forall fun _ _ _ he => nomatch he)
      · rintro τ hτ τ' hτ' v rfl
        obtain ⟨u, hu, rfl⟩ := List.mem_map.1 hτ
        obtain ⟨c, he⟩ := hedge u hu
        have hlt : rank u < rank s := hr hps he
        rcases List.mem_cons.1 hτ' with hv | hv
        · cases hv
          exact hlt
        · exact Nat.lt_trans hlt (hrest.1 _ hv v rfl)
  | case8 => cases h

/-- **A search of a graph without cycles meets none.** -/
theorem Dag.exists_postorder (h : a.Dag root) :
    ∃ order, a.postorder root = .ok ⟨order, true⟩ ∧ a.Topological root order := by
  obtain ⟨rank, -, hr⟩ := h.exists_rank
  obtain ⟨⟨order, isAcyclic⟩, hpost⟩ := Intact.exists_postorder h.intact
  obtain rfl : isAcyclic = true := isAcyclic_of_rank (p := a.Reaches root)
    (fun hs he => hs.trans he.reaches) hr (.start a root) (by simp [taskState, Reaches.refl])
    (by simp) hpost rfl
  exact ⟨order, hpost, topological_of_postorder hpost⟩

end WordGraph.Arena
