import WordGraph.Numbering
import WordGraph.Proofs.Arena.Listing
import WordGraph.Proofs.Arena.Postorder

/-!
# Counting words

In a graph without cycles, the counts of a numbering are the lengths of the lists of accepted words.
They are computed children first, so each is found from counts that are right. The count of the start
is the greatest, so a numbering is missing just if that one is out of range.

* `countAll_spec` — counting goes through a list, children first
* `Dag.compute_eq_some` — the numbering, if the words of the start can be counted
* `Dag.compute_eq_none` — there is none if they cannot
-/

namespace WordGraph.Numbering

open Arena

variable {σ : Type} [Symbol σ] {a : Arena σ} {root s t : StateId} {x : State σ}
  {counts : Array Nat} {done order : List StateId}

theorem length_wordsOf (words : StateId → List (Word σ)) (x : State σ) :
    (wordsOf words x).length =
      x.isFinal.toNat + total (fun t => (words t).length) x.edges.targets := by
  have htargets : ∀ es : List (σ × StateId),
      (es.flatMap fun e => (words e.2).map fun w => e.1 :: w).length =
        total (fun t => (words t).length) (es.map Prod.snd) := by
    intro es
    induction es with
    | nil => rfl
    | cons e es ih => simp [ih]
  rw [wordsOf, List.length_append, htargets]
  cases x.isFinal <;> rfl

theorem countAt_setIfInBounds (counts : Array Nat) (s t : StateId) (n : Nat)
    (hs : s.slot < counts.size) :
    countAt (counts.setIfInBounds s.slot n) t = if t = s then n else countAt counts t := by
  rw [countAt, Array.getElem?_setIfInBounds]
  by_cases h : t = s
  · simp [h, hs]
  · rw [if_neg (slot_ne h).symm, if_neg h]
    rfl

theorem total_congr {α : Type} {f g : α → Nat} {l : List α} (h : ∀ a ∈ l, f a = g a) :
    total f l = total g l := by
  induction l with
  | nil => rfl
  | cons a l ih =>
    rw [total_cons, total_cons, h a (List.mem_cons_self ..),
      ih fun b hb => h b (List.mem_cons_of_mem _ hb)]

/-- The count of a state is found from those of its children. -/
theorem countFrom_eq (h : a.Dag s) (hx : a.get? s = some x)
    (hc : ∀ {c t}, a.Edge s c t → countAt counts t = (a.listing t).length) :
    countFrom counts x = (a.listing s).length := by
  rw [listing_eq h hx, length_wordsOf, countFrom, total_congr fun t ht => ?_]
  obtain ⟨⟨c, t⟩, he, rfl⟩ := List.mem_map.1 ht
  exact hc ((edge_iff_mem hx).2 he)

/-- Counting goes through a list of states, if the children of each are in front of it or counted
before. It stops at a count that is out of range. -/
theorem countAll_spec (hsize : counts.size = a.slotCount) (h : ∀ s ∈ order, a.Dag s)
    (hdone : ∀ s ∈ done, countAt counts s = (a.listing s).length)
    (hfirst : a.ChildrenFirst done order) :
    (countAll a counts order = .ok none ∧ ∃ s ∈ order, countLimit ≤ (a.listing s).length) ∨
      ∃ counts', countAll a counts order = .ok (some counts') ∧
        (∀ s ∈ done, countAt counts' s = (a.listing s).length) ∧
        ∀ s ∈ order, countAt counts' s = (a.listing s).length ∧
          (a.listing s).length < countLimit := by
  induction order generalizing counts done with
  | nil => exact .inr ⟨counts, rfl, hdone, fun s hs => nomatch hs⟩
  | cons s order ih =>
    have hs := h s (List.mem_cons_self ..)
    obtain ⟨x, hx⟩ := isLive_iff.1 hs.isLive
    have hcount : countFrom counts x = (a.listing s).length :=
      countFrom_eq hs hx fun he => hdone _ (hfirst.1 _ _ he)
    rw [countAll, state_eq_ok_iff.2 hx]
    simp only [bind, Except.bind, hcount]
    by_cases hlt : (a.listing s).length < countLimit
    · rw [if_pos hlt]
      have hs := slot_lt_of_get? hx
      rw [← hsize] at hs
      have hdone' : ∀ t ∈ s :: done, countAt (counts.setIfInBounds s.slot (a.listing s).length) t =
          (a.listing t).length := by
        intro t ht
        rw [countAt_setIfInBounds _ _ _ _ hs]
        split
        · next he => rw [he]
        · next he => exact hdone t ((List.mem_cons.1 ht).resolve_left he)
      rcases ih (by rw [Array.size_setIfInBounds, hsize])
        (fun t ht => h t (List.mem_cons_of_mem _ ht)) hdone' hfirst.2 with
        ⟨hnone, t, ht, hle⟩ | ⟨counts', hsome, hdone'', horder⟩
      · exact .inl ⟨hnone, t, List.mem_cons_of_mem _ ht, hle⟩
      · refine .inr ⟨counts', hsome, fun t ht => hdone'' t (List.mem_cons_of_mem _ ht), ?_⟩
        exact List.forall_mem_cons.2 ⟨⟨hdone'' s (List.mem_cons_self ..), hlt⟩, horder⟩
    · rw [if_neg hlt]
      exact .inl ⟨rfl, s, List.mem_cons_self .., Nat.le_of_not_lt hlt⟩

theorem size_of_countAll {counts' : Array Nat} (h : countAll a counts order = .ok (some counts')) :
    counts'.size = counts.size := by
  induction order generalizing counts with
  | nil =>
    cases h
    rfl
  | cons s order ih =>
    rw [countAll] at h
    cases hx : a.state s with
    | error f =>
      rw [hx] at h
      cases h
    | ok x =>
      rw [hx] at h
      simp only [bind, Except.bind] at h
      split at h
      · rw [ih h, Array.size_setIfInBounds]
      · cases h

/-- A numbering has a count for each slot. -/
theorem size_of_compute {n : Numbering} (h : compute a root = .ok (some n)) :
    n.counts.size = a.slotCount := by
  unfold compute at h
  cases hpost : a.postorder root with
  | error f =>
    rw [hpost] at h
    cases h
  | ok post =>
    rw [hpost] at h
    simp only [bind, Except.bind] at h
    cases hcount : countAll a (Array.replicate a.slotCount 0) post.order with
    | error f =>
      rw [hcount] at h
      cases h
    | ok counts? =>
      rw [hcount] at h
      cases counts? with
      | none => cases h
      | some counts =>
        cases h
        rw [size_of_countAll hcount, Array.size_replicate]

/-- What computing a numbering comes to. -/
theorem compute_spec (h : a.Dag root) :
    (compute a root = .ok none ∧ countLimit ≤ (a.listing root).length) ∨
      ∃ n, compute a root = .ok (some n) ∧ (a.listing root).length < countLimit ∧
        ∀ s, a.Reaches root s → n.count s = (a.listing s).length := by
  obtain ⟨order, hpost, htop⟩ := h.exists_postorder
  have hsize : (Array.replicate a.slotCount 0).size = a.slotCount := Array.size_replicate
  have hspec := countAll_spec hsize (fun s hs => h.of_reaches (htop.mem_iff.1 hs)) (by simp)
    htop.childrenFirst
  unfold compute
  simp only [hpost, bind, Except.bind]
  rcases hspec with ⟨hnone, s, hs, hle⟩ | ⟨counts, hsome, -, horder⟩
  · left
    rw [hnone]
    obtain ⟨w, hw⟩ := htop.mem_iff.1 hs
    exact ⟨rfl, Nat.le_trans hle (length_listing_le h hw)⟩
  · right
    rw [hsome]
    exact ⟨_, rfl, (horder root (htop.mem_iff.2 (.refl root))).2,
      fun s hs => (horder s (htop.mem_iff.2 hs)).1⟩

/-- **The counts of a numbering are the numbers of accepted words.** -/
theorem compute_eq_some (h : a.Dag root)
    (hlt : (a.listing root).length < countLimit) :
    ∃ n, compute a root = .ok (some n) ∧
      ∀ s, a.Reaches root s → n.count s = (a.listing s).length := by
  rcases compute_spec h with ⟨-, hle⟩ | ⟨n, hn, -, hcount⟩
  · omega
  · exact ⟨n, hn, hcount⟩

/-- There is no numbering if the words of the start cannot be counted. -/
theorem compute_eq_none (h : a.Dag root)
    (hle : countLimit ≤ (a.listing root).length) : compute a root = .ok none := by
  rcases compute_spec h with ⟨hnone, -⟩ | ⟨n, -, hlt, -⟩
  · exact hnone
  · omega

end WordGraph.Numbering
