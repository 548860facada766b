import Mathlib
import WordGraph.Proofs.Lexicon.Building
import WordGraph.Proofs.Lexicon.Resume

/-!
# Perfect hashing

A lexicon maps its words one to one onto the numbers from 1 to its size, in lexicographic order, at
every point of its life. The sums on the way to the number of a word are checked when they are made.
The way back makes its differences without a check; here they are made with one, and none fails.

* `Numbering.unrankExact` — the search for the word with a number, every difference checked
* `Numbering.unrankFromExact_eq_ok_iff` — it finds what the search without checks finds
* `below_of_getElem?` — as many words of a list in order come before a word as its place says
* `PerfectHash`, `Reachable.perfectHash` — how words and numbers belong together
-/

namespace WordGraph

variable {σ : Type} [Symbol σ]

/-! ## Exact differences -/

namespace Numbering

variable {num : Numbering} {a : Arena σ} {es : List (σ × StateId)} {e : σ × StateId}
  {n m steps : Nat} {s root : StateId} {spelled : List σ} {w : Word σ}
  {p : (σ × StateId) × Nat}

/-- Why a search with exact differences stops without a word. -/
inductive Stray where
  /-- The graph is not in the shape that the search relies on. -/
  | fault (f : Fault)
  /-- A difference would be less than 0. -/
  | belowZero
  /-- There is no edge left to try. -/
  | noEdge

/-- A difference of counts, which has to be a count. -/
def minus (n m : Nat) : Except Stray Nat := if m ≤ n then .ok (n - m) else .error .belowZero

/-- The edge below which the word with a number lies, and its number there, with exact differences. -/
def pickExact (num : Numbering) : List (σ × StateId) → Nat → Except Stray ((σ × StateId) × Nat)
  | [], _ => .error .noEdge
  | e :: edges, n => do
    let m := num.count e.2
    if m < n then num.pickExact edges (← minus n m) else return (e, n)

/-- The word with a number among those accepted from a state, with exact differences. -/
def unrankFromExact (num : Numbering) (a : Arena σ) (spelled : List σ) (s : StateId) (n : Nat) :
    Nat → Except Stray (Word σ)
  | 0 => .error (.fault .endless)
  | steps + 1 => do
    let x ← (a.state s).mapError Stray.fault
    if x.isFinal && n == 1 then return spelled.reverse
    else
      let n ← minus n x.isFinal.toNat
      let ((c, t), n) ← num.pickExact x.edges.edges n
      num.unrankFromExact a (c :: spelled) t n steps

/-- The word with a number that some word has, with exact differences. -/
def unrankExact (num : Numbering) (a : Arena σ) (root : StateId) (n : Nat) :
    Except Stray (Word σ) :=
  num.unrankFromExact a [] root n (n * a.slotCount + 1)

theorem minus_of_le (h : m ≤ n) : minus n m = .ok (n - m) := by
  rw [minus, if_pos h]

omit [Symbol σ] in
/-- Edges are passed over only as long as the number stays above 0. -/
theorem pick_pos (hn : 0 < n) (h : num.pick es n = some (e, m)) : 0 < m := by
  fun_induction pick num es n with
  | case1 => cases h
  | case2 n e' es k hlt ih => exact ih (Nat.sub_pos_of_lt hlt) h
  | case3 =>
    cases h
    exact hn

omit [Symbol σ] in
theorem pickExact_eq_ok_iff : num.pickExact es n = .ok p ↔ num.pick es n = some p := by
  induction es generalizing n with
  | nil => simp [pickExact, pick]
  | cons e es ih =>
    simp only [pickExact, pick]
    by_cases hlt : num.count e.2 < n
    · rw [if_pos hlt, if_pos hlt, minus_of_le (Nat.le_of_lt hlt), ok_bind, ih]
    · rw [if_neg hlt, if_neg hlt]
      simp [pure, Except.pure]

/-- **No difference on the way to a word is less than 0**, whatever the numbering: the search with exact
differences finds just what the other one finds. -/
theorem unrankFromExact_eq_ok_iff (hn : 0 < n) :
    num.unrankFromExact a spelled s n steps = .ok w ↔
      num.unrankFrom a spelled s n steps = .ok (some w) := by
  induction steps generalizing spelled s n with
  | zero => simp [unrankFromExact, unrankFrom]
  | succ steps ih =>
    rw [unrankFromExact, unrankFrom, bind_eq_ok_iff, bind_eq_ok_iff]
    refine exists_congr fun x => and_congr mapError_eq_ok_iff ?_
    by_cases hend : x.isFinal && n == 1
    · rw [if_pos hend, if_pos hend]
      simp [pure, Except.pure]
    · rw [if_neg hend, if_neg hend]
      -- the number of a word that goes on behind an end is more than 1
      have hlt : x.isFinal.toNat < n := by
        cases hf : x.isFinal with
        | false => exact hn
        | true =>
          have hone : n ≠ 1 := by simpa [hf] using hend
          rw [Bool.toNat_true]
          omega
      have hsub : (if x.isFinal then n - 1 else n) = n - x.isFinal.toNat := by
        cases x.isFinal <;> rfl
      rw [minus_of_le (Nat.le_of_lt hlt), ok_bind, hsub, bind_eq_ok_iff]
      simp only [pickExact_eq_ok_iff]
      cases hpick : num.pick x.edges.edges (n - x.isFinal.toNat) with
      | none => simp [pure, Except.pure]
      | some p =>
        obtain ⟨⟨c, t⟩, m⟩ := p
        simp only [Option.some.injEq, exists_eq_left']
        exact ih (pick_pos (Nat.sub_pos_of_lt hlt) hpick)

/-- A word that is found is found with exact differences. -/
theorem unrankExact_of_unrank (h : num.unrank a root n = .ok (some w)) :
    num.unrankExact a root n = .ok w := by
  unfold unrank at h
  split at h
  · cases h
  · next hrange => exact (unrankFromExact_eq_ok_iff (by omega)).2 h

end Numbering

/-! ## Places in a list of words -/

/-- As many words of a list in order come before a word of the list as its place says. -/
theorem below_of_getElem? {ws : List (Word σ)} (hs : ws.Pairwise (· < ·)) {i : Nat} {w : Word σ}
    (h : ws[i]? = some w) : below w ws = i := by
  induction hs generalizing i with
  | nil => simp at h
  | @cons v ws hv _ ih =>
    cases i with
    | zero =>
      obtain rfl : v = w := by simpa using h
      rw [below, List.countP_eq_zero]
      intro u hu
      rw [decide_eq_true_eq]
      rcases List.mem_cons.1 hu with rfl | hu
      · exact List.lt_irrefl u
      · exact List.lt_asymm (hv u hu)
    | succ i =>
      rw [List.getElem?_cons_succ] at h
      rw [below, List.countP_cons_of_pos (by simpa using hv w (List.mem_of_getElem? h))]
      exact congrArg Nat.succ (ih h)

/-- The word that some words of a list in order come before stands behind them. -/
theorem getElem?_below {ws : List (Word σ)} (hs : ws.Pairwise (· < ·)) {w : Word σ} (hw : w ∈ ws) :
    ws[below w ws]? = some w := by
  obtain ⟨i, hi⟩ := List.mem_iff_getElem?.1 hw
  rw [below_of_getElem? hs hi, hi]

/-- More words of a list in order come before a greater one. -/
theorem below_lt_below_iff {ws : List (Word σ)} (hs : ws.Pairwise (· < ·)) {v w : Word σ}
    (hv : v ∈ ws) (hw : w ∈ ws) : below v ws < below w ws ↔ v < w := by
  have hplace : ∀ {u u'}, u ∈ ws → u' ∈ ws → below u ws < below u' ws → u < u' := by
    intro u u' hu hu' hlt
    obtain ⟨hi, hget⟩ := List.getElem?_eq_some_iff.1 (getElem?_below hs hu)
    obtain ⟨hj, hget'⟩ := List.getElem?_eq_some_iff.1 (getElem?_below hs hu')
    have := List.pairwise_iff_getElem.1 hs _ _ hi hj hlt
    rwa [hget, hget'] at this
  refine ⟨hplace hv hw, fun hlt => ?_⟩
  rcases Nat.lt_trichotomy (below v ws) (below w ws) with hb | hb | hb
  · exact hb
  · have heq := getElem?_below hs hv
    rw [hb, getElem?_below hs hw] at heq
    cases heq
    exact absurd hlt (List.lt_irrefl _)
  · exact absurd (hplace hw hv hb) (List.lt_asymm hlt)

namespace Lexicon

variable {l : Lexicon σ} {v w : Word σ} {i j : Nat}

/-- How many words of a valid lexicon come before a word. -/
theorem Valid.ncard_holds_lt (h : l.Valid) (w : Word σ) :
    {v | l.Holds v ∧ v < w}.ncard = below w (l.arena.listing l.root) := by
  have hset : {v | l.Holds v ∧ v < w} =
      ((l.arena.listing l.root).filter (fun v => v < w)).toFinset := by
    ext v
    simp [h.mem_listing_iff]
  rw [hset, Set.ncard_coe_finset, List.toFinset_card_of_nodup ((Arena.nodup_listing ..).filter _),
    below, List.countP_eq_length_filter]

theorem Valid.rank_eq_some_iff (h : l.Valid) :
    Prod.fst <$> (l.rank w).result = .ok (some i) ↔
      l.Holds w ∧ below w (l.arena.listing l.root) + 1 = i := by
  obtain ⟨n, hrank, -⟩ := h.rank_spec w
  rw [hrank, ← h.mem_listing_iff]
  show Except.ok _ = _ ↔ _
  split
  · next hw => simp [hw]
  · next hw => simp [hw]

theorem Valid.unrank_eq_some_iff (h : l.Valid) :
    Prod.fst <$> (l.unrank i).result = .ok (some w) ↔
      0 < i ∧ (l.arena.listing l.root)[i - 1]? = some w := by
  obtain ⟨n, hunrank, -⟩ := h.unrank_spec i
  rw [hunrank, Nat.pos_iff_ne_zero]
  show Except.ok _ = _ ↔ _
  split
  · next hi => simp [hi]
  · next hi => simp [hi]

/-- **Numbers lead back to words, and words to numbers.** -/
theorem Valid.unrank_eq_iff_rank_eq (h : l.Valid) :
    Prod.fst <$> (l.unrank i).result = .ok (some w) ↔
      Prod.fst <$> (l.rank w).result = .ok (some i) := by
  have hs := Arena.sorted_listing l.arena l.root
  rw [h.unrank_eq_some_iff, h.rank_eq_some_iff, ← h.mem_listing_iff]
  constructor
  · rintro ⟨hi, hw⟩
    refine ⟨List.mem_of_getElem? hw, ?_⟩
    rw [below_of_getElem? hs hw]
    omega
  · rintro ⟨hw, rfl⟩
    exact ⟨Nat.succ_pos _, getElem?_below hs hw⟩

/-- A number that is not too great is that of a word. -/
theorem Valid.exists_unrank (h : l.Valid) (hi : 0 < i) (hle : i ≤ l.size) :
    ∃ w, Prod.fst <$> (l.unrank i).result = .ok (some w) := by
  rw [h.size_eq] at hle
  exact ⟨_, h.unrank_eq_some_iff.2 ⟨hi, List.getElem?_eq_getElem (by omega)⟩⟩

/-- The words of a lexicon have the numbers from 1 to its size, in lexicographic order. Sums that go
into a number are counts, or there would be no answer. -/
structure PerfectHash (l : Lexicon σ) : Prop where
  size_eq : {w | l.Holds w}.encard = l.size
  /-- A numbering that is remembered is the one that is computed from the graph. -/
  remembered : ∀ n, l.numbering? = some n → Numbering.compute l.arena l.root = .ok (some n)
  rank_of_not_holds : ∀ w, ¬l.Holds w → Prod.fst <$> (l.rank w).result = .ok none
  rank_of_holds : ∀ w, l.Holds w →
    Prod.fst <$> (l.rank w).result = .ok (some ({v | l.Holds v ∧ v < w}.ncard + 1))
  unrank_of_out : ∀ i, i = 0 ∨ l.size < i → Prod.fst <$> (l.unrank i).result = .ok none
  unrank_of_in : ∀ i, 0 < i → i ≤ l.size → ∃ w, Prod.fst <$> (l.unrank i).result = .ok (some w) ∧
    l.Holds w ∧ {v | l.Holds v ∧ v < w}.ncard + 1 = i
  unrank_rank : ∀ w, l.Holds w → ∃ i, Prod.fst <$> (l.rank w).result = .ok (some i) ∧
    Prod.fst <$> (l.unrank i).result = .ok (some w)
  rank_unrank : ∀ i, 0 < i → i ≤ l.size → ∃ w, Prod.fst <$> (l.unrank i).result = .ok (some w) ∧
    Prod.fst <$> (l.rank w).result = .ok (some i)
  rank_lt_rank_iff : ∀ v w i j, Prod.fst <$> (l.rank v).result = .ok (some i) →
    Prod.fst <$> (l.rank w).result = .ok (some j) → (i < j ↔ v < w)
  /-- The search for a word neither makes a difference less than 0 nor runs out of edges. -/
  exact_differences : ∃ n, Numbering.compute l.arena l.root = .ok (some n) ∧
    ∀ i, 0 < i → i ≤ l.size → ∃ w, n.unrankExact l.arena l.root i = .ok w ∧
      Prod.fst <$> (l.unrank i).result = .ok (some w)

/-- A valid lexicon finds its words with exact differences. -/
theorem Valid.exists_unrankExact (h : l.Valid) :
    ∃ n, Numbering.compute l.arena l.root = .ok (some n) ∧
      ∀ i, 0 < i → i ≤ l.size → ∃ w, n.unrankExact l.arena l.root i = .ok w ∧
        Prod.fst <$> (l.unrank i).result = .ok (some w) := by
  obtain ⟨n, -, hcomp, hcount⟩ := h.numbering_spec
  refine ⟨n, hcomp, fun i hi hle => ?_⟩
  obtain ⟨w, hw⟩ := h.exists_unrank hi hle
  refine ⟨w, Numbering.unrankExact_of_unrank ?_, hw⟩
  rw [Numbering.unrank_spec h.sound.dag_root hcount, if_neg (Nat.ne_of_gt hi),
    (h.unrank_eq_some_iff.1 hw).2]

/-- **The words of a lexicon and the numbers from 1 to its size belong together one to one**, in order,
whatever has led to the lexicon and whatever it has been asked before. -/
theorem Reachable.perfectHash (h : Reachable l) : PerfectHash l := by
  have hvalid := h.valid
  have hs := Arena.sorted_listing l.arena l.root
  constructor
  case size_eq => exact hvalid.encard_holds
  case remembered => exact hvalid.numbering
  case rank_of_not_holds =>
    intro w hw
    obtain ⟨n, hrank, -⟩ := hvalid.rank_spec w
    rw [hrank, if_neg (by rwa [hvalid.mem_listing_iff])]
    rfl
  case rank_of_holds =>
    intro w hw
    rw [hvalid.ncard_holds_lt]
    exact hvalid.rank_eq_some_iff.2 ⟨hw, rfl⟩
  case unrank_of_out =>
    intro i hi
    obtain ⟨n, hunrank, -⟩ := hvalid.unrank_spec i
    rw [hvalid.size_eq] at hi
    rw [hunrank]
    rcases hi with rfl | hlt
    · rfl
    · rw [List.getElem?_eq_none (by omega), ite_self]
      rfl
  case unrank_of_in =>
    intro i hi hle
    obtain ⟨w, hw⟩ := hvalid.exists_unrank hi hle
    refine ⟨w, hw, ?_⟩
    rw [hvalid.ncard_holds_lt]
    exact hvalid.rank_eq_some_iff.1 (hvalid.unrank_eq_iff_rank_eq.1 hw)
  case unrank_rank =>
    intro w hw
    have hrank := hvalid.rank_eq_some_iff.2 ⟨hw, rfl⟩
    exact ⟨_, hrank, hvalid.unrank_eq_iff_rank_eq.2 hrank⟩
  case rank_unrank =>
    intro i hi hle
    obtain ⟨w, hw⟩ := hvalid.exists_unrank hi hle
    exact ⟨w, hw, hvalid.unrank_eq_iff_rank_eq.1 hw⟩
  case rank_lt_rank_iff =>
    intro v w i j hv hw
    obtain ⟨hv', rfl⟩ := hvalid.rank_eq_some_iff.1 hv
    obtain ⟨hw', rfl⟩ := hvalid.rank_eq_some_iff.1 hw
    rw [Nat.add_lt_add_iff_right]
    exact below_lt_below_iff hs (hvalid.mem_listing_iff.2 hv') (hvalid.mem_listing_iff.2 hw')
  case exact_differences => exact hvalid.exists_unrankExact

/-- The words 2 and 1 3 are added in the wrong order, with a question for a number in between; then the
lexicon is closed and asked again. The word 2 has the number 2. -/
theorem perfectHash_of_two_words :
    let l : Lexicon UInt8 :=
      (new 0).after [.addUnchecked [2], .number, .addUnchecked [1, 3], .close, .number]
    Reachable l ∧ PerfectHash l ∧ Prod.fst <$> (l.rank [2]).result = .ok (some 2) := by
  have h := Reachable.after (.new (σ := UInt8) 0)
    [.addUnchecked [2], .number, .addUnchecked [1, 3], .close, .number]
  have hrank : Prod.fst <$> (((new 0 : Lexicon UInt8).after
      [.addUnchecked [2], .number, .addUnchecked [1, 3], .close, .number]).rank [2]).result =
      .ok (some 2) := by cbv
  exact ⟨h, h.perfectHash, hrank⟩

end Lexicon

end WordGraph
