import WordGraph.Arena.Preorder
import WordGraph.Proofs.Arena.Matching
import WordGraph.Proofs.Arena.Postorder

/-!
# The order of the first visits

A search lists every state that can be reached once. What it does hangs on the shape of the graph
alone: in two graphs whose states match, it meets matching states at the same time.

* `mem_preorder_iff`, `nodup_preorder` — the states in reach, once each
* `exists_preorder` — a search of a graph without dangling edges has an answer
* `exists_preorder_eq_cons` — the start is listed first
* `Matching.preorder` — matching graphs are searched in the same order
-/

namespace WordGraph.Arena

variable {σ : Type} [Symbol σ] {a a' : Arena σ} {root root' s s' t t' : StateId} {c : σ}
  {x : State σ} {seen seen' : Array Bool} {order order' out stack stack' : List StateId}
  {r : StateId → StateId → Prop}

/-- What marks, order and stack of a search have to do with each other. -/
structure Visiting (a : Arena σ) (seen : Array Bool) (order stack : List StateId) : Prop where
  size_eq : seen.size = a.slotCount
  seen_iff : ∀ {s : StateId} (h : s.slot < seen.size), seen[s.slot] = true ↔ s ∈ order
  nodup : order.Nodup
  /-- The children of visited states are visited or will be. -/
  mem_of_edge : ∀ {s c t}, s ∈ order → a.Edge s c t → t ∈ order ∨ t ∈ stack

namespace Visiting

theorem start (a : Arena σ) (root : StateId) :
    a.Visiting (Array.replicate a.slotCount false) [] [root] where
  size_eq := by simp
  seen_iff h := by simp
  nodup := .nil
  mem_of_edge hs := nomatch hs

/-- A state that was visited is not visited again. -/
theorem skip (h : a.Visiting seen order (s :: stack)) (hlt : s.slot < seen.size)
    (hs : seen[s.slot] = true) : a.Visiting seen order stack where
  size_eq := h.size_eq
  seen_iff := h.seen_iff
  nodup := h.nodup
  mem_of_edge ht he := by
    rcases h.mem_of_edge ht he with hm | hm
    · exact .inl hm
    · rcases List.mem_cons.1 hm with rfl | hm
      · exact .inl ((h.seen_iff hlt).1 hs)
      · exact .inr hm

/-- A state is visited. -/
theorem visit (h : a.Visiting seen order (s :: stack)) (hlt : s.slot < seen.size)
    (hs : ¬seen[s.slot] = true) (hx : a.get? s = some x) :
    a.Visiting (seen.set s.slot true) (s :: order) (x.edges.targets ++ stack) where
  size_eq := by rw [Array.size_set, h.size_eq]
  seen_iff {t} ht := by
    rw [Array.size_set] at ht
    by_cases hts : t = s
    · simp [hts]
    · rw [Array.getElem_set_ne hlt ht (slot_ne hts).symm, h.seen_iff ht]
      simp [hts]
  nodup := List.nodup_cons.2 ⟨fun hm => hs ((h.seen_iff hlt).2 hm), h.nodup⟩
  mem_of_edge ht he := by
    rcases List.mem_cons.1 ht with rfl | ht
    · exact .inr (List.mem_append_left _ (List.mem_map_of_mem ((edge_iff_mem hx).1 he)))
    · rcases h.mem_of_edge ht he with hm | hm
      · exact .inl (List.mem_cons_of_mem _ hm)
      · rcases List.mem_cons.1 hm with rfl | hm
        · exact .inl (List.mem_cons_self ..)
        · exact .inr (List.mem_append_right _ hm)

end Visiting

/-! ## What a search lists -/

theorem preorderLoop_spec (h : a.Visiting seen order stack)
    (hr : a.preorderLoop seen order stack = .ok out) :
    out.Nodup ∧ (∀ s ∈ order, s ∈ out) ∧ (∀ s ∈ stack, s ∈ out) ∧
      (∀ {s c t}, s ∈ out → a.Edge s c t → t ∈ out) ∧
      ∀ s ∈ out, s ∈ order ∨ ∃ t ∈ stack, a.Reaches t s := by
  fun_induction preorderLoop a seen order stack with
  | case1 =>
    cases hr
    refine ⟨List.nodup_reverse.2 h.nodup, fun s hs => List.mem_reverse.2 hs, by simp, ?_, ?_⟩
    · intro s c t hs he
      rw [List.mem_reverse] at hs ⊢
      exact (h.mem_of_edge hs he).resolve_right List.not_mem_nil
    · exact fun s hs => .inl (List.mem_reverse.1 hs)
  | case2 seen order s stack hlt hs ih =>
    obtain ⟨hnd, hord, hstack, hclosed, hout⟩ := ih (h.skip hlt hs) hr
    refine ⟨hnd, hord, ?_, hclosed, fun t ht => ?_⟩
    · exact List.forall_mem_cons.2 ⟨hord s ((h.seen_iff hlt).1 hs), hstack⟩
    · exact (hout t ht).imp_right fun ⟨u, hu, hr⟩ => ⟨u, List.mem_cons_of_mem _ hu, hr⟩
  | case3 => cases hr
  | case4 seen order s stack hlt hs x hx ih =>
    have hx := state_eq_ok_iff.1 hx
    obtain ⟨hnd, hord, hstack, hclosed, hout⟩ := ih (h.visit hlt hs hx) hr
    have hself := hord s (List.mem_cons_self ..)
    refine ⟨hnd, fun t ht => hord t (List.mem_cons_of_mem _ ht), ?_, hclosed, fun t ht => ?_⟩
    · exact List.forall_mem_cons.2 ⟨hself, fun t ht => hstack t (List.mem_append_right _ ht)⟩
    · rcases hout t ht with ht | ⟨u, hu, hr⟩
      · rcases List.mem_cons.1 ht with rfl | ht
        · exact .inr ⟨_, List.mem_cons_self .., .refl _⟩
        · exact .inl ht
      · right
        rcases List.mem_append.1 hu with hu | hu
        · obtain ⟨⟨c, u⟩, he, rfl⟩ := List.mem_map.1 hu
          exact ⟨s, List.mem_cons_self .., ((edge_iff_mem hx).2 he).reaches.trans hr⟩
        · exact ⟨u, List.mem_cons_of_mem _ hu, hr⟩
  | case5 => cases hr

/-- **A search lists the states in reach.** -/
theorem mem_preorder_iff (h : a.preorder root = .ok order) : s ∈ order ↔ a.Reaches root s := by
  obtain ⟨-, -, hstack, hclosed, hout⟩ := preorderLoop_spec (.start a root) h
  constructor
  · intro hs
    rcases hout s hs with hs | ⟨t, ht, hr⟩
    · cases hs
    · rw [List.mem_singleton.1 ht] at hr
      exact hr
  · rintro ⟨w, hw⟩
    exact mem_of_path hclosed (hstack root (List.mem_singleton.2 rfl)) hw

theorem nodup_preorder (h : a.preorder root = .ok order) : order.Nodup :=
  (preorderLoop_spec (.start a root) h).1

theorem exists_preorderLoop {p : StateId → Prop} (hp : ∀ {s c t}, p s → a.Edge s c t → p t)
    (hl : ∀ s, p s → a.isLive s) (hsize : seen.size = a.slotCount) (hs : ∀ s ∈ stack, p s) :
    ∃ out, a.preorderLoop seen order stack = .ok out := by
  have hslot : ∀ {s}, p s → s.slot < seen.size := by
    intro s hs
    obtain ⟨x, hx⟩ := isLive_iff.1 (hl s hs)
    rw [hsize]
    exact slot_lt_of_get? hx
  fun_induction preorderLoop a seen order stack with
  | case1 => exact ⟨_, rfl⟩
  | case2 _ _ _ _ _ _ ih => exact ih hsize (fun t ht => hs t (List.mem_cons_of_mem _ ht)) hslot
  | case3 _ _ s _ _ _ f hx =>
    obtain ⟨y, hy⟩ := isLive_iff.1 (hl s (hs s (List.mem_cons_self ..)))
    rw [(state_eq_error_iff.1 hx).1] at hy
    cases hy
  | case4 seen order s stack _ _ x hx ih =>
    have hx := state_eq_ok_iff.1 hx
    refine ih (by rw [Array.size_set, hsize]) (fun t ht => ?_)
      (fun ht => by rw [Array.size_set]; exact hslot ht)
    rcases List.mem_append.1 ht with ht | ht
    · obtain ⟨⟨c, u⟩, he, rfl⟩ := List.mem_map.1 ht
      exact hp (hs s (List.mem_cons_self ..)) ((edge_iff_mem hx).2 he)
    · exact hs t (List.mem_cons_of_mem _ ht)
  | case5 _ _ s _ hlt => exact absurd (hslot (hs s (List.mem_cons_self ..))) hlt

/-- A search of a graph without dangling edges has an answer. -/
theorem exists_preorder (h : a.Intact root) : ∃ order, a.preorder root = .ok order :=
  exists_preorderLoop (p := a.Reaches root) (fun hs he => hs.trans he.reaches) h (by simp)
    (by simp [Reaches.refl])

/-- What was visited first stays in front. -/
theorem reverse_isPrefix_of_preorderLoop (h : a.preorderLoop seen order stack = .ok out) :
    order.reverse <+: out := by
  fun_induction preorderLoop a seen order stack with
  | case1 =>
    cases h
    exact List.prefix_refl _
  | case2 _ _ _ _ _ _ ih => exact ih h
  | case3 => cases h
  | case4 _ order s _ _ _ _ _ ih =>
    have hpre := ih h
    rw [List.reverse_cons] at hpre
    exact (List.prefix_append _ _).trans hpre
  | case5 => cases h

/-- A search visits its start first. -/
theorem exists_preorder_eq_cons (h : a.preorder root = .ok order) :
    ∃ rest, order = root :: rest := by
  unfold preorder at h
  rw [preorderLoop] at h
  split at h
  · next hlt =>
    simp only [Array.getElem_replicate, Bool.false_eq_true, dite_false] at h
    split at h
    · cases h
    · obtain ⟨rest, hrest⟩ := reverse_isPrefix_of_preorderLoop h
      exact ⟨rest, hrest.symm⟩
  · cases h

/-! ## Searches of matching graphs -/

theorem Matching.preorderLoop (h : Matching a a' r) (hv : a.Visiting seen order stack)
    (hv' : a'.Visiting seen' order' stack') (ho : List.Forall₂ r order order')
    (hs : List.Forall₂ r stack stack') (hr : a.preorderLoop seen order stack = .ok out) :
    ∃ out', a'.preorderLoop seen' order' stack' = .ok out' ∧ List.Forall₂ r out out' := by
  fun_induction Arena.preorderLoop a seen order stack generalizing seen' order' stack' with
  | case1 seen order =>
    cases hr
    cases hs
    exact ⟨order'.reverse, by rw [Arena.preorderLoop], List.rel_reverse ho⟩
  | case2 seen order s stack hlt hseen ih =>
    obtain ⟨s', stack', hss, hstack, rfl⟩ := List.forall₂_cons_left_iff.1 hs
    obtain ⟨x, x', hx, hx', -⟩ := h.state hss
    have hlt' : s'.slot < seen'.size := by
      rw [hv'.size_eq]
      exact slot_lt_of_get? hx'
    have hseen' : seen'[s'.slot] = true :=
      (hv'.seen_iff hlt').2 ((h.mem_iff hss ho).1 ((hv.seen_iff hlt).1 hseen))
    rw [Arena.preorderLoop, dif_pos hlt', dif_pos hseen']
    exact ih (hv.skip hlt hseen) (hv'.skip hlt' hseen') ho hstack hr
  | case3 => cases hr
  | case4 seen order s stack hlt hseen x hx ih =>
    obtain ⟨s', stack', hss, hstack, rfl⟩ := List.forall₂_cons_left_iff.1 hs
    obtain ⟨y, x', hy, hx', -, hedges⟩ := h.state hss
    have hx := state_eq_ok_iff.1 hx
    rw [hx] at hy
    cases hy
    have hlt' : s'.slot < seen'.size := by
      rw [hv'.size_eq]
      exact slot_lt_of_get? hx'
    have hseen' : ¬seen'[s'.slot] = true := fun hm =>
      hseen ((hv.seen_iff hlt).2 ((h.mem_iff hss ho).2 ((hv'.seen_iff hlt').1 hm)))
    have htargets : List.Forall₂ r (x.edges.targets ++ stack) (x'.edges.targets ++ stack') := by
      refine List.rel_append ?_ hstack
      rw [EdgeTable.targets, EdgeTable.targets, List.forall₂_map_left_iff,
        List.forall₂_map_right_iff]
      exact hedges.imp fun _ _ he => he.2
    rw [Arena.preorderLoop, dif_pos hlt', dif_neg hseen', state_eq_ok_iff.2 hx']
    exact ih (hv.visit hlt hseen hx) (hv'.visit hlt' hseen' hx') (.cons hss ho) htargets hr
  | case5 => cases hr

/-- **Matching graphs are searched in the same order.** -/
theorem Matching.preorder (h : Matching a a' r) (hroot : r root root')
    (ho : a.preorder root = .ok order) :
    ∃ order', a'.preorder root' = .ok order' ∧ List.Forall₂ r order order' :=
  h.preorderLoop (.start a root) (.start a' root') .nil (.cons hroot .nil) ho

end WordGraph.Arena
