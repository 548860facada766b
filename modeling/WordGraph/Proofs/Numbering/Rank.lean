import WordGraph.Lexicon.Query
import WordGraph.Proofs.Lexicon.Valid

/-!
# Numbers of words

The number of a word is its place in the list of the accepted words. On the way to a word, the search
adds up the words that end on the way and those along the edges in front; these are just the words
that come before it. The way back takes the same numbers off.

* `below` — the number of the words of a list that come before a word
* `rankFrom_spec` — the number of a word is one more than that
* `unrankFrom_spec` — a number is that of the word at its place
* `Lexicon.rank_spec`, `Lexicon.unrank_spec` — the same for lexicons
-/

namespace WordGraph

open Arena Automaton

variable {σ : Type} [Symbol σ] {a : Arena σ} {s t root : StateId} {c : σ} {w : Word σ}
  {x : State σ} {n m steps : Nat} {words : StateId → List (Word σ)} {es : List (σ × StateId)}
  {num : Numbering} {spelled : List σ}

theorem le_total_of_mem {α : Type} {f : α → Nat} {l : List α} {b : α} (h : b ∈ l) :
    f b ≤ total f l := by
  obtain ⟨l₁, l₂, rfl⟩ := List.append_of_mem h
  rw [total_append, total_cons]
  omega

/-! ## The words that come before a word -/

/-- How many words of a list come before a word. -/
def below (w : Word σ) (ws : List (Word σ)) : Nat := ws.countP fun v => v < w

@[simp] theorem below_nil (ws : List (Word σ)) : below [] ws = 0 := by
  simp [below]

/-- The words along some edges. -/
def wordsAlong (words : StateId → List (Word σ)) (es : List (σ × StateId)) : List (Word σ) :=
  es.flatMap fun e => (words e.2).map fun w => e.1 :: w

theorem wordsOf_eq (words : StateId → List (Word σ)) (x : State σ) :
    wordsOf words x = (if x.isFinal then [[]] else []) ++ wordsAlong words x.edges.edges := rfl

omit [Symbol σ] in
theorem wordsAlong_cons (words : StateId → List (Word σ)) (e : σ × StateId)
    (es : List (σ × StateId)) :
    wordsAlong words (e :: es) = (words e.2).map (fun w => e.1 :: w) ++ wordsAlong words es := rfl

omit [Symbol σ] in
theorem length_wordsAlong (words : StateId → List (Word σ)) (es : List (σ × StateId)) :
    (wordsAlong words es).length = total (fun e => (words e.2).length) es := by
  induction es with
  | nil => rfl
  | cons e es ih => rw [wordsAlong_cons, List.length_append, List.length_map, ih, total_cons]

/-- No word along an edge comes before a word that goes on with a smaller symbol. -/
theorem below_wordsAlong_of_lt (h : ∀ e ∈ es, c < e.1) :
    below (c :: w) (wordsAlong words es) = 0 := by
  rw [below, List.countP_eq_zero]
  intro v hv
  obtain ⟨e, he, hv⟩ := List.mem_flatMap.1 hv
  obtain ⟨v, -, rfl⟩ := List.mem_map.1 hv
  rw [decide_eq_true_eq, List.cons_lt_cons_iff, not_or, not_and]
  exact ⟨Symbol.not_lt_of_lt (h e he), fun heq => absurd heq (Symbol.ne_of_lt (h e he)).symm⟩

/-- The words along edges that come before a word: those along the edges in front of its own, and some
of those along that one. -/
theorem below_wordsAlong (hs : es.Pairwise fun e e' => e.1 < e'.1) :
    below (c :: w) (wordsAlong words es) =
      total (fun e => (words e.2).length) (es.takeWhile fun e => e.1 < c) +
        match (es.find? fun e => e.1 = c).map Prod.snd with
        | some t => below w (words t)
        | none => 0 := by
  induction hs with
  | nil => rfl
  | @cons e es hlt _ ih =>
    have hcount : below (c :: w) (wordsAlong words (e :: es)) =
        (words e.2).countP (fun v => e.1 :: v < c :: w) +
          below (c :: w) (wordsAlong words es) := by
      rw [wordsAlong_cons, below, List.countP_append, List.countP_map]
      rfl
    rw [hcount]
    rcases Symbol.lt_trichotomy e.1 c with he | he | he
    · have hall : (words e.2).countP (fun v => e.1 :: v < c :: w) = (words e.2).length := by
        rw [List.countP_eq_length]
        exact fun v _ => by simp [List.cons_lt_cons_iff, he]
      rw [hall, ih, List.takeWhile_cons_of_pos (by simpa using he), total_cons,
        List.find?_cons_of_neg (by simpa using Symbol.ne_of_lt he), Nat.add_assoc]
    · subst he
      have hself : (words e.2).countP (fun v => e.1 :: v < e.1 :: w) = below w (words e.2) := by
        simp [below, List.cons_lt_cons_self]
      rw [hself, below_wordsAlong_of_lt hlt,
        List.takeWhile_cons_of_neg (by simpa using Symbol.lt_irrefl e.1),
        List.find?_cons_of_pos (by simp), total_nil, Nat.zero_add, Nat.add_zero]
      rfl
    · have hnone : (words e.2).countP (fun v => e.1 :: v < c :: w) = 0 := by
        rw [List.countP_eq_zero]
        intro v _
        simp [List.cons_lt_cons_iff, Symbol.not_lt_of_lt he, (Symbol.ne_of_lt he).symm]
      have hfind : (e :: es).find? (fun e => decide (e.1 = c)) = none := by
        rw [List.find?_eq_none]
        intro e' he'
        have hgt : c < e'.1 := by
          rcases List.mem_cons.1 he' with rfl | he'
          · exact he
          · exact Symbol.lt_trans he (hlt e' he')
        simpa using (Symbol.ne_of_lt hgt).symm
      rw [hnone, below_wordsAlong_of_lt fun e' he' => Symbol.lt_trans he (hlt e' he'), hfind,
        List.takeWhile_cons_of_neg (by simpa using Symbol.not_lt_of_lt he)]
      rfl

/-- How many words from a state come before a word. -/
theorem below_wordsOf (words : StateId → List (Word σ)) (x : State σ) :
    below (c :: w) (wordsOf words x) =
      x.isFinal.toNat +
        total (fun e => (words e.2).length) (x.edges.edges.takeWhile fun e => e.1 < c) +
        match x.edges.find? c with
        | some t => below w (words t)
        | none => 0 := by
  have hend : (if x.isFinal then [[]] else []).countP (fun v : Word σ => v < c :: w) =
      x.isFinal.toNat := by
    cases x.isFinal <;> simp
  rw [wordsOf_eq, below, List.countP_append, hend, Nat.add_assoc]
  exact congrArg (x.isFinal.toNat + ·) (below_wordsAlong x.edges.sorted)

/-! ## The number of a word -/

namespace Numbering

/-- The counts of a numbering are right for a state and all states behind it. -/
def RightFrom (num : Numbering) (a : Arena σ) (s : StateId) : Prop :=
  ∀ t, a.Reaches s t → num.count t = (a.listing t).length

theorem RightFrom.of_edge (h : num.RightFrom a s) (he : a.Edge s c t) : num.RightFrom a t :=
  fun u hu => h u (he.reaches.trans hu)

omit [Symbol σ] in
/-- Counts are added up as long as the sum is a count. -/
theorem foldlM_plus (f : σ × StateId → Nat) (h : n + total f es < countLimit) :
    es.foldlM (fun n e => plus n (f e)) n = .ok (n + total f es) := by
  induction es generalizing n with
  | nil => rfl
  | cons e es ih =>
    rw [total_cons] at h
    rw [List.foldlM_cons, plus_eq_ok_iff.2 ⟨rfl, by omega⟩, ok_bind, ih (by omega), total_cons,
      Nat.add_assoc]

/-- The words from a state: those that end there, those along the edges in front of a symbol, and the
others. -/
theorem length_wordsOf_eq (words : StateId → List (Word σ)) (x : State σ) (c : σ) :
    (wordsOf words x).length = x.isFinal.toNat +
      total (fun e => (words e.2).length) (x.edges.edges.takeWhile fun e => e.1 < c) +
        total (fun e => (words e.2).length) (x.edges.edges.dropWhile fun e => e.1 < c) := by
  have hend : (if x.isFinal then [([] : Word σ)] else []).length = x.isFinal.toNat := by
    cases x.isFinal <;> rfl
  rw [wordsOf_eq, List.length_append, length_wordsAlong, hend, Nat.add_assoc, ← total_append,
    List.takeWhile_append_dropWhile]

/-- The edge for a symbol is not in front of the symbol. -/
theorem mem_dropWhile_of_find? (hc : x.edges.find? c = some t) :
    (c, t) ∈ x.edges.edges.dropWhile fun e => e.1 < c := by
  have hmem := EdgeTable.find?_eq_some_iff.1 hc
  rw [← List.takeWhile_append_dropWhile (p := fun e => decide (e.1 < c)) (l := x.edges.edges),
    List.mem_append] at hmem
  refine hmem.resolve_left fun hm => Symbol.lt_irrefl c ?_
  simpa using List.all_eq_true.1 List.all_takeWhile _ hm

/-- A search for a number passes the words that end at a state and those along the edges in front. -/
theorem rankFrom_cons (hx : a.get? s = some x)
    (hlt : n + x.isFinal.toNat +
      total (fun e => num.count e.2) (x.edges.edges.takeWhile fun e => e.1 < c) < countLimit) :
    num.rankFrom a n s (c :: w) =
      match x.edges.find? c with
      | some t => num.rankFrom a (n + x.isFinal.toNat +
          total (fun e => num.count e.2) (x.edges.edges.takeWhile fun e => e.1 < c)) t w
      | none => .ok none := by
  rw [rankFrom, state_eq_ok_iff.2 hx, ok_bind]
  cases hf : x.isFinal with
  | false =>
    rw [hf] at hlt
    simp only [Bool.false_eq_true, if_false, pure_bind, Bool.toNat_false, Nat.add_zero] at hlt ⊢
    rw [foldlM_plus _ hlt, ok_bind]
    rfl
  | true =>
    rw [hf, Bool.toNat_true] at hlt
    have hplus : plus n 1 = .ok (n + 1) := plus_eq_ok_iff.2 ⟨rfl, by omega⟩
    simp only [if_true, Bool.toNat_true, hplus, ok_bind]
    rw [foldlM_plus _ hlt, ok_bind]
    rfl

/-- **The number of a word is one more than the number of the words that come before it**, beside the
`n` words that were passed over. -/
theorem rankFrom_spec (h : a.Dag s) (hnum : num.RightFrom a s)
    (hprod : ∀ {u c t}, a.Reaches s u → a.Edge u c t → a.listing t ≠ [])
    (hn : n + max 1 (a.listing s).length < countLimit) :
    num.rankFrom a n s w =
      .ok (if w ∈ a.listing s then some (n + below w (a.listing s) + 1) else none) := by
  induction w generalizing n s with
  | nil =>
    obtain ⟨x, hx⟩ := isLive_iff.1 h.isLive
    have hplus : plus n 1 = .ok (n + 1) := plus_eq_ok_iff.2 ⟨rfl, by omega⟩
    have hmem : [] ∈ a.listing s ↔ x.isFinal := by
      rw [listing_eq h hx, nil_mem_wordsOf]
    rw [rankFrom, state_eq_ok_iff.2 hx, ok_bind, hplus, ok_bind, below_nil, Nat.add_zero]
    simp only [hmem]
    rfl
  | cons c w ih =>
    obtain ⟨x, hx⟩ := isLive_iff.1 h.isLive
    have hlist := listing_eq h hx
    have hlength := length_wordsOf_eq a.listing x c
    rw [← hlist] at hlength
    have hcounts : ∀ e ∈ x.edges.edges.takeWhile (fun e => e.1 < c),
        num.count e.2 = (a.listing e.2).length := by
      intro e he
      have he : a.Edge s e.1 e.2 := (edge_iff_mem hx).2 (List.takeWhile_subset _ he)
      exact hnum _ he.reaches
    have htotal := total_congr hcounts
    rw [rankFrom_cons hx (by omega)]
    have hmem : c :: w ∈ a.listing s ↔ ∃ t, a.Edge s c t ∧ w ∈ a.listing t := by
      rw [hlist, cons_mem_wordsOf]
      simp only [edge_iff_mem hx]
    cases hc : x.edges.find? c with
    | none =>
      have hnot : c :: w ∉ a.listing s := by
        rw [hmem]
        rintro ⟨t, ⟨y, hy, ht⟩, -⟩
        rw [hx] at hy
        cases hy
        rw [hc] at ht
        cases ht
      rw [if_neg hnot]
    | some t =>
      have he : a.Edge s c t := ⟨x, hx, hc⟩
      have hpos := List.length_pos_of_ne_nil (hprod (.refl s) he)
      have hle : (a.listing t).length ≤ _ := le_total_of_mem
        (f := fun e : σ × StateId => (a.listing e.2).length) (mem_dropWhile_of_find? hc)
      show num.rankFrom a _ t w = _
      rw [ih (h.of_edge he) (hnum.of_edge he) (fun hr => hprod (he.reaches.trans hr)) (by omega)]
      have hiff : c :: w ∈ a.listing s ↔ w ∈ a.listing t := by
        rw [hmem]
        refine ⟨fun ⟨u, hu, hw⟩ => ?_, fun hw => ⟨t, he, hw⟩⟩
        rwa [he.unique hu]
      have hbelow : below (c :: w) (a.listing s) = x.isFinal.toNat +
          total (fun e => (a.listing e.2).length) (x.edges.edges.takeWhile fun e => e.1 < c) +
            below w (a.listing t) := by
        rw [hlist, below_wordsOf, hc]
      simp only [hiff, hbelow, htotal, Nat.add_assoc]

/-! ## The word with a number -/

/-- The edge along which the word with a number lies, and its number there. -/
theorem pick_spec (hcounts : ∀ e ∈ es, num.count e.2 = (a.listing e.2).length) (hpos : 0 < n)
    (hn : n ≤ (wordsAlong a.listing es).length) :
    ∃ e m, num.pick es n = some (e, m) ∧ e ∈ es ∧ 0 < m ∧ m ≤ (a.listing e.2).length ∧
      (wordsAlong a.listing es)[n - 1]? = (a.listing e.2)[m - 1]?.map fun w => e.1 :: w := by
  induction es generalizing n with
  | nil => exact absurd hn (Nat.not_le_of_lt hpos)
  | cons e es ih =>
    have hcount := hcounts e (List.mem_cons_self ..)
    rw [wordsAlong_cons, List.length_append, List.length_map] at hn
    rw [pick]
    simp only [hcount]
    by_cases hlt : (a.listing e.2).length < n
    · obtain ⟨e', m, hpick, he', hm, hle, hget⟩ := ih
        (fun e' he' => hcounts e' (List.mem_cons_of_mem _ he')) (n := n - (a.listing e.2).length)
        (by omega) (by omega)
      refine ⟨e', m, by rw [if_pos hlt, hpick], List.mem_cons_of_mem _ he', hm, hle, ?_⟩
      have hsub : n - 1 - (a.listing e.2).length = n - (a.listing e.2).length - 1 := by omega
      rw [wordsAlong_cons, List.getElem?_append_right (by rw [List.length_map]; omega),
        List.length_map, hsub, hget]
    · refine ⟨e, n, by rw [if_neg hlt], List.mem_cons_self .., hpos, Nat.le_of_not_lt hlt, ?_⟩
      rw [wordsAlong_cons, List.getElem?_append_left (by rw [List.length_map]; omega),
        List.getElem?_map]

/-- The word with a number among the words that go on behind a state. -/
theorem unrankFrom_pick (hnum : num.RightFrom a s) (hx : a.get? s = some x)
    (hgo : ∀ {c t k}, a.Edge s c t → 0 < k → k ≤ (a.listing t).length →
      num.unrankFrom a (c :: spelled) t k steps =
        .ok ((a.listing t)[k - 1]?.map fun w => (c :: spelled).reverse ++ w))
    (hpos : 0 < n) (hn : n ≤ (wordsAlong a.listing x.edges.edges).length) :
    (match num.pick x.edges.edges n with
      | some ((c, t), n) => num.unrankFrom a (c :: spelled) t n steps
      | none => return none) =
    .ok ((wordsAlong a.listing x.edges.edges)[n - 1]?.map fun w => spelled.reverse ++ w) := by
  have hcounts : ∀ e ∈ x.edges.edges, num.count e.2 = (a.listing e.2).length :=
    fun e he => hnum _ ((edge_iff_mem hx).2 he).reaches
  obtain ⟨⟨c, t⟩, k, hpick, he, hk, hkle, hget⟩ := pick_spec hcounts hpos hn
  rw [hpick, hget]
  simp only
  rw [hgo ((edge_iff_mem hx).2 he) hk hkle]
  simp [Function.comp_def]

/-- **The word with a number is the one at its place in the list.** -/
theorem unrankFrom_spec (h : a.Dag s) (hnum : num.RightFrom a s) (hpos : 0 < n)
    (hn : n ≤ (a.listing s).length) (hsteps : ∀ w t, a.Path s w t → w.length < steps) :
    num.unrankFrom a spelled s n steps =
      .ok ((a.listing s)[n - 1]?.map fun w => spelled.reverse ++ w) := by
  induction steps generalizing spelled s n with
  | zero => exact absurd (hsteps [] s (.nil s)) (Nat.not_lt_zero _)
  | succ steps ih =>
    obtain ⟨x, hx⟩ := isLive_iff.1 h.isLive
    have hlist := (listing_eq h hx).trans (wordsOf_eq ..)
    have hgo : ∀ {c t k}, a.Edge s c t → 0 < k → k ≤ (a.listing t).length →
        num.unrankFrom a (c :: spelled) t k steps =
          .ok ((a.listing t)[k - 1]?.map fun w => (c :: spelled).reverse ++ w) := by
      intro c t k he hk hkle
      refine ih (h.of_edge he) (hnum.of_edge he) hk hkle fun w u hp => ?_
      exact Nat.lt_of_succ_lt_succ (hsteps (c :: w) u (path_cons_iff_edge.2 ⟨t, he, hp⟩))
    rw [unrankFrom, state_eq_ok_iff.2 hx, ok_bind]
    cases hf : x.isFinal with
    | false =>
      rw [hf, if_neg Bool.false_ne_true, List.nil_append] at hlist
      simp only [Bool.false_and, Bool.false_eq_true, if_false]
      rw [hlist] at hn ⊢
      exact unrankFrom_pick hnum hx hgo hpos hn
    | true =>
      rw [hf, if_pos rfl] at hlist
      rw [hlist, List.length_append, List.length_singleton] at hn
      simp only [Bool.true_and, beq_iff_eq, if_true]
      by_cases hone : n = 1
      · rw [if_pos hone, hlist, hone]
        simp [pure, Except.pure]
      · rw [if_neg hone, hlist, List.getElem?_append_right (by rw [List.length_singleton]; omega)]
        exact unrankFrom_pick hnum hx hgo (by omega) (by omega)

theorem unrank_spec (h : a.Dag root) (hnum : num.RightFrom a root) (i : Nat) :
    num.unrank a root i = .ok (if i = 0 then none else (a.listing root)[i - 1]?) := by
  unfold unrank
  rw [hnum root (.refl root)]
  by_cases hi : i = 0
  · rw [if_pos (.inl hi), if_pos hi]
  rw [if_neg hi]
  by_cases hlt : (a.listing root).length < i
  · rw [if_pos (.inr hlt), List.getElem?_eq_none (by omega)]
  · rw [if_neg (by simp [hi, hlt]), unrankFrom_spec h hnum (Nat.pos_of_ne_zero hi)
      (Nat.le_of_not_lt hlt) fun w t hp => ?_]
    · simp
    · have hlen := h.length_lt_of_path hp
      have hle := Nat.le_mul_of_pos_left a.slotCount (Nat.pos_of_ne_zero hi)
      omega

end Numbering

namespace Lexicon

variable {l : Lexicon σ}

/-- Every edge of a valid lexicon leads to a state from which a word is accepted. -/
theorem Valid.listing_ne_nil (h : l.Valid) (he : l.arena.Edge s c t) : l.arena.listing t ≠ [] := by
  obtain ⟨w, hw⟩ := h.exists_accepts_of_edge he
  exact List.ne_nil_of_mem ((Arena.mem_listing_iff (h.sound.dag (h.sound.edge_live he))).2 hw)

/-- **The number of a word is its place in the list of all words**, counted from 1. -/
theorem Valid.rank_spec (h : l.Valid) (w : Word σ) :
    ∃ n, (l.rank w).result = .ok
        (if w ∈ l.arena.listing l.root then some (below w (l.arena.listing l.root) + 1) else none,
          { l with numbering? := some n }) ∧
      Numbering.compute l.arena l.root = .ok (some n) := by
  obtain ⟨n, hrun, hcomp, hcount⟩ := h.numbering_spec
  refine ⟨n, ?_, hcomp⟩
  have hlt := h.size_lt
  rw [h.size_eq] at hlt
  have hlimit : 1 < countLimit := by decide
  have hmax : 0 + max 1 (l.arena.listing l.root).length < countLimit := by omega
  have hrank := Numbering.rankFrom_spec (n := 0) (w := w) h.sound.dag_root hcount
    (fun _ he => h.listing_ne_nil he) hmax
  unfold rank
  simp only [Run.result_bind, hrun, ok_bind, Numbering.rank, hrank, Run.result_liftM_ok,
    Run.result_pure, Nat.zero_add]

/-- **The word with a number is the one at its place**, counted from 1. -/
theorem Valid.unrank_spec (h : l.Valid) (i : Nat) :
    ∃ n, (l.unrank i).result = .ok
        (if i = 0 then none else (l.arena.listing l.root)[i - 1]?,
          { l with numbering? := some n }) ∧
      Numbering.compute l.arena l.root = .ok (some n) := by
  obtain ⟨n, hrun, hcomp, hcount⟩ := h.numbering_spec
  refine ⟨n, ?_, hcomp⟩
  have hunrank := Numbering.unrank_spec h.sound.dag_root hcount i
  unfold unrank
  simp only [Run.result_bind, hrun, ok_bind, hunrank, Run.result_liftM_ok, Run.result_pure]

end Lexicon

end WordGraph
