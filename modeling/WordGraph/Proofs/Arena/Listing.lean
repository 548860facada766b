import Mathlib.Data.List.Sort
import Mathlib.Data.Set.Card
import WordGraph.Proofs.Arena.Edge

/-!
# The list of the accepted words

The words accepted from a state, in lexicographic order, as a list that is defined along the edges.
Everything that a lexicon counts, numbers or hands out is told by this list, and the list hangs on
the accepted words alone.

* `mem_listing_iff`, `sorted_listing` — the list has the accepted words, in order
* `eq_listing` — no other list does
* `listing_eq` — the list of a state, by those of its children
* `encard_accepts` — the list is as long as there are accepted words
-/

namespace WordGraph.Arena

variable {σ : Type} [Symbol σ] {a a' : Arena σ} {s s' t : StateId} {c : σ} {w v : Word σ} {n : Nat}
  {x : State σ}

/-- The words accepted from a state with a given end and given edges, by those of its children. -/
def wordsOf (words : StateId → List (Word σ)) (x : State σ) : List (Word σ) :=
  (if x.isFinal then [[]] else []) ++
    x.edges.edges.flatMap fun e => (words e.2).map fun w => e.1 :: w

/-- The words with fewer than so many symbols that are accepted from a state. -/
def wordsWithin (a : Arena σ) : Nat → StateId → List (Word σ)
  | 0, _ => []
  | n + 1, s =>
    match a.get? s with
    | some x => wordsOf (a.wordsWithin n) x
    | none => []

/-- The words accepted from a state in lexicographic order, if there is no cycle. -/
def listing (a : Arena σ) (s : StateId) : List (Word σ) := a.wordsWithin a.slotCount s

theorem nil_mem_wordsOf {words : StateId → List (Word σ)} :
    [] ∈ wordsOf words x ↔ x.isFinal := by
  cases hf : x.isFinal <;> simp [wordsOf, hf]

theorem cons_mem_wordsOf {words : StateId → List (Word σ)} :
    c :: w ∈ wordsOf words x ↔ ∃ t, (c, t) ∈ x.edges.edges ∧ w ∈ words t := by
  cases hf : x.isFinal <;> simp [wordsOf, hf]

theorem mem_wordsWithin_iff : w ∈ a.wordsWithin n s ↔ a.Accepts s w ∧ w.length < n := by
  induction n generalizing s w with
  | zero => simp [wordsWithin]
  | succ n ih =>
    rw [wordsWithin]
    cases hx : a.get? s with
    | none =>
      simp only [List.not_mem_nil, false_iff, not_and]
      intro hw
      obtain ⟨y, hy⟩ := isLive_iff.1 (isLive_of_accepts hw)
      rw [hx] at hy
      cases hy
    | some x =>
      cases w with
      | nil => simp [nil_mem_wordsOf, accepts_nil_iff_of_get? hx]
      | cons c w =>
        simp only [cons_mem_wordsOf, ih, accepts_cons_iff, List.length_cons,
          Nat.add_lt_add_iff_right, edge_iff_mem hx]
        constructor
        · exact fun ⟨t, he, hw, hn⟩ => ⟨⟨t, he, hw⟩, hn⟩
        · exact fun ⟨⟨t, he, hw⟩, hn⟩ => ⟨t, he, hw, hn⟩

/-- If the lists of the children are in order, so is that of the state. -/
theorem sorted_wordsOf {words : StateId → List (Word σ)}
    (h : ∀ t ∈ x.edges.targets, (words t).Pairwise (· < ·)) :
    (wordsOf words x).Pairwise (· < ·) := by
  refine List.pairwise_append.2 ⟨?_, ?_, ?_⟩
  · split <;> simp
  · refine List.pairwise_flatMap.2 ⟨fun e he => ?_, x.edges.sorted.imp ?_⟩
    · refine List.Pairwise.map _ (fun w v hlt => ?_) (h e.2 (List.mem_map_of_mem he))
      exact List.cons_lt_cons_self.2 hlt
    · intro e e' hlt w hw v hv
      obtain ⟨w, -, rfl⟩ := List.mem_map.1 hw
      obtain ⟨v, -, rfl⟩ := List.mem_map.1 hv
      exact List.Lex.rel hlt
  · intro w hw v hv
    obtain ⟨e, -, hv⟩ := List.mem_flatMap.1 hv
    obtain ⟨v, -, rfl⟩ := List.mem_map.1 hv
    split at hw
    · rw [List.mem_singleton.1 hw]
      exact List.nil_lt_cons ..
    · cases hw

theorem sorted_wordsWithin (a : Arena σ) (n : Nat) (s : StateId) :
    (a.wordsWithin n s).Pairwise (· < ·) := by
  induction n generalizing s with
  | zero => exact .nil
  | succ n ih =>
    rw [wordsWithin]
    cases a.get? s with
    | none => exact .nil
    | some x => exact sorted_wordsOf fun t _ => ih t

/-- The list is in lexicographic order, without repetitions. -/
theorem sorted_listing (a : Arena σ) (s : StateId) : (a.listing s).Pairwise (· < ·) :=
  sorted_wordsWithin ..

theorem nodup_listing (a : Arena σ) (s : StateId) : (a.listing s).Nodup := by
  refine (sorted_listing a s).imp ?_
  rintro w _ hlt rfl
  exact List.lt_irrefl _ hlt

/-- **The list has the accepted words.** -/
theorem mem_listing_iff (h : a.Dag s) : w ∈ a.listing s ↔ a.Accepts s w := by
  rw [listing, mem_wordsWithin_iff, and_iff_left_of_imp h.length_lt_of_accepts]

/-- Two lists of words in order with the same members are the same. -/
theorem eq_of_sorted {ws vs : List (Word σ)} (hw : ws.Pairwise (· < ·)) (hv : vs.Pairwise (· < ·))
    (h : ∀ u, u ∈ ws ↔ u ∈ vs) : ws = vs := by
  have : Std.Antisymm fun w v : Word σ => w < v := ⟨fun _ _ h h' => absurd h' (List.lt_asymm h)⟩
  exact hw.eq_of_mem_iff hv h

/-- **No other list in order has the accepted words.** -/
theorem eq_listing (h : a.Dag s) {ws : List (Word σ)} (hs : ws.Pairwise (· < ·))
    (hm : ∀ w, w ∈ ws ↔ a.Accepts s w) : ws = a.listing s :=
  eq_of_sorted hs (sorted_listing a s) fun w => by rw [hm, mem_listing_iff h]

/-- The list hangs on the accepted words alone. -/
theorem listing_congr (h : a.Dag s) (h' : a'.Dag s') (hw : ∀ w, a.Accepts s w ↔ a'.Accepts s' w) :
    a.listing s = a'.listing s' :=
  eq_listing h' (sorted_listing a s) fun w => by rw [mem_listing_iff h, hw]

/-- The list of a state, by the lists of its children. -/
theorem listing_eq (h : a.Dag s) (hx : a.get? s = some x) : a.listing s = wordsOf a.listing x := by
  refine (eq_listing h (sorted_wordsOf fun t _ => sorted_listing a t) fun w => ?_).symm
  cases w with
  | nil => rw [nil_mem_wordsOf, accepts_nil_iff_of_get? hx]
  | cons c w =>
    rw [cons_mem_wordsOf, accepts_cons_iff]
    refine exists_congr fun t => ?_
    rw [edge_iff_mem hx]
    refine and_congr_right fun he => mem_listing_iff (h.of_edge ((edge_iff_mem hx).2 he))

/-- No more words are accepted behind a path than from its start. -/
theorem length_listing_le (h : a.Dag s) (hp : a.Path s v t) :
    (a.listing t).length ≤ (a.listing s).length := by
  have hmap : ((a.listing t).map fun w => v ++ w).length ≤ (a.listing s).length := by
    refine List.Subperm.length_le (List.subperm_of_subset ?_ fun u hu => ?_)
    · exact (nodup_listing a t).map fun _ _ he => List.append_cancel_left he
    obtain ⟨w, hw, rfl⟩ := List.mem_map.1 hu
    have hw := (mem_listing_iff (h.of_reaches ⟨v, hp⟩)).1 hw
    exact (mem_listing_iff h).2 ((accepts_append_iff hp).2 hw)
  rwa [List.length_map] at hmap

/-! ## Numbers of words -/

/-- The accepted words are as many as their list is long. -/
theorem encard_accepts (h : a.Dag s) : {w | a.Accepts s w}.encard = (a.listing s).length := by
  classical
  have hset : {w | a.Accepts s w} = ((a.listing s).toFinset : Set (Word σ)) := by
    ext w
    simp [mem_listing_iff h]
  rw [hset, Set.encard_coe_eq_coe_finsetCard, List.toFinset_card_of_nodup (nodup_listing a s)]

/-- A new word is one word more. -/
theorem length_listing_of_new (h : a.Dag s) (h' : a'.Dag s') (hnot : ¬a.Accepts s w)
    (hiff : ∀ v, a'.Accepts s' v ↔ v = w ∨ a.Accepts s v) :
    (a'.listing s').length = (a.listing s).length + 1 := by
  have hnd : (w :: a.listing s).Nodup :=
    List.nodup_cons.2 ⟨fun hm => hnot ((mem_listing_iff h).1 hm), nodup_listing a s⟩
  have hperm : List.Perm (a'.listing s') (w :: a.listing s) := by
    refine (List.perm_ext_iff_of_nodup (nodup_listing a' s') hnd).2 fun v => ?_
    rw [mem_listing_iff h', hiff, List.mem_cons, mem_listing_iff h]
  exact hperm.length_eq

/-- A new word for which another one is lost is no word more. -/
theorem length_listing_le_of_lost (h : a.Dag s) (h' : a'.Dag s') (hv : a.Accepts s v)
    (hlost : ∀ u, a'.Accepts s' u → u = w ∨ a.Accepts s u ∧ u ≠ v) :
    (a'.listing s').length ≤ (a.listing s).length := by
  have hmem : v ∈ a.listing s := (mem_listing_iff h).2 hv
  have hsub : a'.listing s' ⊆ w :: (a.listing s).erase v := by
    intro u hu
    rcases hlost u ((mem_listing_iff h').1 hu) with rfl | ⟨hu, hne⟩
    · exact List.mem_cons_self ..
    · exact List.mem_cons_of_mem _ ((List.mem_erase_of_ne hne).2 ((mem_listing_iff h).2 hu))
  have hle := (List.subperm_of_subset (nodup_listing a' s') hsub).length_le
  have hpos := List.length_pos_of_mem hmem
  rw [List.length_cons, List.length_erase_of_mem hmem] at hle
  omega

end WordGraph.Arena
