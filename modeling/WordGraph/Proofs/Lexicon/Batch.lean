import Mathlib
import WordGraph.Proofs.Lexicon.Building

/-!
# Building from a list of words

A list of words in order becomes the closed lexicon of these words, and no smaller graph would do: no
word in order takes an edge, so every state stays in reach, and closed lexicons tell states in reach
apart by what may follow. A list out of order is refused where it first goes down.

* `Built.trim` — in order, every state stays in reach
* `Valid.encard_rests` — the states of a closed lexicon are what may follow
* `Built.addAll` — adding the words of a list in order
* `Batch` — the lexicon of a list of words
* `ofWords_spec` — a list of words becomes their lexicon or is refused at the first descent
-/

namespace WordGraph

open Arena Automaton

variable {σ : Type} [Symbol σ]

namespace Lexicon

variable {l l' : Lexicon σ} {L : Set (Word σ)} {w v last : Word σ} {ws us vs : List (Word σ)}
  {life : Lifecycle} {isNew : Bool} {e : Error σ}

/-- **As long as words are added in order, every state stays in reach.** -/
theorem Built.trim (h : Built l L last life) : l.automaton.Trim := by
  induction h with
  | new identity => exact initial_trim
  | add h hr ih =>
    have hord := h.ordered
    obtain ⟨hl, hlt, hins⟩ := insert_of_add hr
    have hlife := hord.lifecycle_eq ▸ hl
    obtain ⟨i, ms, hadd, ho⟩ :=
      hord.exists_add_of_insert hlife (hord.lastWord_eq hlife ▸ hlt) hins
    exact ((hord.valid.growing hl).add_ok hadd).trim ho ih
  | @close l l' L last life h hr ih =>
    by_cases hl : l.lifecycle = .closed
    · rw [close_of_closed hl] at hr
      cases hr
      exact ih
    · obtain ⟨g, ms, hrun, rfl⟩ := exists_close_of_close hl hr
      obtain ⟨g', ms', hrun', hclosed⟩ := (h.ordered.valid.growing hl).close_spec
      rw [hrun] at hrun'
      cases hrun'
      exact hclosed.trim ih
  | clear h hr =>
    cases hr
    exact initial_trim
  | numbering h hr ih =>
    obtain ⟨n, hrun, -⟩ := h.ordered.valid.numbering_spec
    rw [hrun] at hr
    cases hr
    exact ih

/-! ## The states of a closed lexicon -/

/-- A closed lexicon with words, all of whose states are in reach, has one state for each set of words
that may follow some word. -/
theorem Valid.encard_rests (h : l.Valid) (hl : l.lifecycle = .closed) (htrim : l.automaton.Trim)
    (hne : ∃ v, l.Holds v) :
    (l.stateCount : ℕ∞) = {R : Set (Word σ) | R.Nonempty ∧ ∃ u, R = {x | l.Holds (u ++ x)}}.encard := by
  have hset : {R : Set (Word σ) | R.Nonempty ∧ ∃ u, R = {x | l.Holds (u ++ x)}} =
      (fun s => {x | l.arena.Accepts s x}) '' {s | l.arena.isLive s} := by
    ext R
    constructor
    · rintro ⟨⟨x, hx⟩, u, rfl⟩
      obtain ⟨r, y, hp, hy, hf⟩ := hx
      obtain ⟨s, hs, hr⟩ := path_append_iff.1 hp
      refine ⟨s, isLive_of_accepts ⟨r, y, hr, hy, hf⟩, ?_⟩
      ext z
      exact (accepts_append_iff hs).symm
    · rintro ⟨s, hs, rfl⟩
      obtain ⟨u, hu⟩ := htrim s hs
      refine ⟨?_, u, ?_⟩
      · by_cases hroot : s = l.root
        · exact hroot ▸ hne
        · exact h.sound.exists_accepts h.productive hs hroot
      · ext z
        exact (accepts_append_iff hu).symm
  have hinj : Set.InjOn (fun s => {x | l.arena.Accepts s x}) {s | l.arena.isLive s} := by
    intro s hs t ht heq
    exact h.eq_of_closed hl (htrim s hs) (htrim t ht) fun w => Set.ext_iff.1 heq w
  rw [hset, hinj.encard_image, h.sound.tidy.encard_isLive]
  rfl

/-- A lexicon without words, all of whose states are in reach, has one state. -/
theorem Valid.stateCount_eq_one (h : l.Valid) (htrim : l.automaton.Trim)
    (hno : ∀ v, ¬l.Holds v) : l.stateCount = 1 := by
  have hset : {s | l.arena.isLive s} = {l.root} := by
    ext s
    refine ⟨fun hs => ?_, fun hs => hs ▸ h.sound.root_live⟩
    by_contra hne
    obtain ⟨u, hu⟩ := htrim s hs
    obtain ⟨x, hx⟩ := h.sound.exists_accepts h.productive hs hne
    exact hno _ ((accepts_append_iff hu).2 hx)
  have hcard := h.sound.tidy.encard_isLive
  rw [hset, Set.encard_singleton] at hcard
  exact (Nat.cast_inj.1 hcard).symm

/-! ## Adding the words of a list -/

/-- Adds the words of a list one after the other. -/
def addAll (l : Lexicon σ) (ws : List (Word σ)) : Run σ (Lexicon σ) :=
  ws.foldlM (fun l w => Prod.snd <$> l.add w) l

theorem ofWords_eq (identity : Nat) (ws : List (Word σ)) :
    ofWords identity ws = (new identity).addAll ws >>= close := by
  rw [ofWords, Run.fold_eq_foldlM]
  rfl

theorem addAll_cons_of_ok (h : (l.add w).result = .ok (isNew, l')) :
    (l.addAll (w :: ws)).result = (l'.addAll ws).result := by
  rw [addAll, List.foldlM_cons, Run.result_bind, Run.result_map, h]
  rfl

theorem addAll_cons_of_error (h : (l.add w).result = .error e) :
    (l.addAll (w :: ws)).result = .error e := by
  rw [addAll, List.foldlM_cons, Run.result_bind, Run.result_map, h]
  rfl

theorem result_addAll_append (l : Lexicon σ) (us vs : List (Word σ)) :
    (l.addAll (us ++ vs)).result = (l.addAll us).result >>= fun l => (l.addAll vs).result := by
  rw [addAll, List.foldlM_append, Run.result_bind]
  rfl

/-- No word of a list comes before the word in front of it. -/
abbrev Ascending (ws : List (Word σ)) : Prop := ws.IsChain fun v w => ¬w < v

/-- A word too many is one of as many words as cannot be counted. -/
theorem Ordered.countLimit_le (h : Ordered l L last life) (hl : life ≠ .closed) (hw : ¬w < last)
    (hr : (l.insert w).result = .error (.fault .countOverflow)) (ws : List (Word σ)) :
    (countLimit : ℕ∞) ≤ (L ∪ {v | v ∈ w :: ws}).encard := by
  obtain ⟨hnew, ⟨he, -⟩ | ⟨-, hn⟩⟩ := h.insert_error hl hw hr
  · cases he
  · have hfin : L.encard = L.ncard := by
      have hset : {v | l.Holds v} = L := Set.ext h.holds_iff
      rw [← hset, ← h.valid.size_eq_ncard, h.valid.encard_holds]
    have hsub : L ∪ {w} ⊆ L ∪ {v | v ∈ w :: ws} :=
      Set.union_subset_union_right L (Set.singleton_subset_iff.2 (List.mem_cons_self ..))
    have hcard : (L ∪ {w}).encard = countLimit := by
      rw [Set.union_singleton, Set.encard_insert_of_notMem hnew, hfin, ← hn]
      rfl
    exact hcard ▸ Set.encard_le_encard hsub

/-- **Words in order are added one after the other**, unless there is no slot left or there are too
many of them to be counted. -/
theorem Built.addAll (h : Built l L last life) (hl : life ≠ .closed)
    (hasc : Ascending (last :: ws)) :
    (∃ l' life', (l.addAll ws).result = .ok l' ∧ life' ≠ .closed ∧
        Built l' (L ∪ {v | v ∈ ws}) ((last :: ws).getLast (by simp)) life') ∨
      (l.addAll ws).result = .error (.fault .arenaFull) ∨
      (l.addAll ws).result = .error (.fault .countOverflow) ∧
        (countLimit : ℕ∞) ≤ (L ∪ {v | v ∈ ws}).encard := by
  induction ws generalizing l L last life with
  | nil => exact .inl ⟨l, life, rfl, hl, by simpa using h⟩
  | cons w ws ih =>
    have hord := h.ordered
    obtain ⟨hw, hrest⟩ := List.isChain_cons_cons.1 hasc
    have hadd : l.add w = l.insert w :=
      add_of_not_lt (hord.lifecycle_eq ▸ hl) (hord.lastWord_eq hl ▸ hw)
    have hunion : L ∪ {w} ∪ {v | v ∈ ws} = L ∪ {v | v ∈ w :: ws} := by
      ext v
      simp [or_assoc, or_left_comm]
    cases hr : (l.insert w).result with
    | ok made =>
      obtain ⟨isNew, l'⟩ := made
      rw [← hadd] at hr
      have := ih (h.add hr) (by decide) hrest
      rw [hunion] at this
      rw [addAll_cons_of_ok hr, List.getLast_cons_cons]
      exact this
    | error e =>
      rw [addAll_cons_of_error (hadd ▸ hr)]
      rcases (hord.insert_error hl hw hr).2 with ⟨rfl, -⟩ | ⟨rfl, -⟩
      · exact .inr (.inl rfl)
      · exact .inr (.inr ⟨rfl, hord.countLimit_le hl hw hr ws⟩)

/-- A list that is not in order goes down somewhere for the first time. -/
theorem exists_descent (h : ¬Ascending ws) :
    ∃ us v w vs, ws = us ++ v :: w :: vs ∧ Ascending (us ++ [v]) ∧ w < v := by
  induction ws with
  | nil => exact absurd .nil h
  | cons v ws ih =>
    cases ws with
    | nil => exact absurd (.singleton v) h
    | cons w ws =>
      by_cases hw : w < v
      · exact ⟨[], v, w, ws, rfl, .singleton v, hw⟩
      · obtain ⟨us, v', w', vs, heq, hasc, hlt⟩ := ih fun hasc => h (.cons_cons hw hasc)
        refine ⟨v :: us, v', w', vs, by rw [heq]; rfl, ?_, hlt⟩
        cases us with
        | nil =>
          cases heq
          exact .cons_cons hw hasc
        | cons u us =>
          cases heq
          exact .cons_cons hw hasc

/-! ## The lexicon of a list -/

/-- The closed lexicon of a list of words, with as few states as there can be. -/
structure Batch (ws : List (Word σ)) (l : Lexicon σ) : Prop where
  lifecycle_eq : l.lifecycle = .closed
  holds_iff : ∀ v, l.Holds v ↔ v ∈ ws
  contains : ∀ v, ∃ b, l.contains v = .ok b ∧ (b ↔ v ∈ ws)
  size_eq : l.size = {v | v ∈ ws}.ncard
  /-- There is one state for each set of words that may follow some word. -/
  stateCount_eq : (l.stateCount : ℕ∞) =
    if ws = [] then 1 else {R : Set (Word σ) | R.Nonempty ∧ ∃ u, R = {x | u ++ x ∈ ws}}.encard

/-- Once the words of a list are added, closing makes their lexicon. -/
theorem Built.close_batch (h : Built l {v | v ∈ ws} last life) :
    ∃ l', l.close.result = .ok l' ∧ Batch ws l' := by
  obtain ⟨l', hr, -⟩ := h.ordered.valid.close_spec
  have hbuilt := h.close hr
  have hord := hbuilt.ordered
  refine ⟨l', hr, hord.lifecycle_eq, hord.holds_iff, fun v => ?_, ?_, ?_⟩
  · obtain ⟨b, hb, hiff⟩ := exists_contains hord.valid.sound.dag_root.intact v
    exact ⟨b, hb, hiff.trans (hord.holds_iff v)⟩
  · rw [hord.valid.size_eq_ncard]
    exact congrArg Set.ncard (Set.ext hord.holds_iff)
  · split
    · next hnil =>
      subst hnil
      rw [hord.valid.stateCount_eq_one hbuilt.trim fun v hv => by simpa using (hord.holds_iff v).1 hv]
      rfl
    · next hne =>
      obtain ⟨v, hv⟩ := List.exists_mem_of_ne_nil ws hne
      rw [hord.valid.encard_rests hord.lifecycle_eq hbuilt.trim ⟨v, (hord.holds_iff v).2 hv⟩]
      simp only [hord.holds_iff]
      rfl

/-- **A list of words becomes the smallest lexicon of these words, or is refused where it first goes
down.** Apart from the slots, only more words than can be counted are in the way. -/
theorem ofWords_spec (identity : Nat) (ws : List (Word σ))
    (hfull : (ofWords identity ws).result ≠ .error (.fault .arenaFull)) :
    (Ascending ws → (∃ l, (ofWords identity ws).result = .ok l ∧ Batch ws l) ∨
      (ofWords identity ws).result = .error (.fault .countOverflow) ∧
        countLimit ≤ {v | v ∈ ws}.ncard) ∧
    (¬Ascending ws → ∃ us v w vs, ws = us ++ v :: w :: vs ∧ Ascending (us ++ [v]) ∧ w < v ∧
      ((ofWords identity ws).result = .error (.outOfOrder v w) ∨
        (ofWords identity ws).result = .error (.fault .countOverflow) ∧
          countLimit ≤ {v | v ∈ ws}.ncard)) := by
  have hnew : Built (new identity : Lexicon σ) ∅ [] .empty := .new identity
  -- the words up to any place at which the list has not gone down
  have hasc : ∀ us, Ascending us → Ascending (([] : Word σ) :: us) := by
    intro us h
    cases us with
    | nil => exact .singleton _
    | cons u us => exact .cons_cons (List.not_lt_nil u) h
  have hcount : ∀ us ⊆ ws, (countLimit : ℕ∞) ≤ (∅ ∪ {v | v ∈ us}).encard →
      countLimit ≤ {v | v ∈ ws}.ncard := by
    intro us hsub hle
    rw [Set.empty_union] at hle
    have hsub : {v | v ∈ us} ⊆ {v | v ∈ ws} := fun v hv => hsub hv
    have hle := hle.trans (Set.encard_le_encard hsub)
    rw [← (List.finite_toSet ws).cast_ncard_eq] at hle
    exact Nat.cast_le.1 hle
  rw [ofWords_eq, Run.result_bind] at hfull ⊢
  constructor
  · intro h
    rcases hnew.addAll (by decide) (hasc ws h) with ⟨l, life, hr, -, hb⟩ | hr | ⟨hr, hle⟩
    · rw [Set.empty_union] at hb
      rw [hr]
      exact .inl hb.close_batch
    · rw [hr] at hfull
      exact absurd rfl hfull
    · rw [hr]
      exact .inr ⟨rfl, hcount ws (List.Subset.refl ws) hle⟩
  · intro h
    obtain ⟨us, v, w, vs, heq, hup, hlt⟩ := exists_descent h
    refine ⟨us, v, w, vs, heq, hup, hlt, ?_⟩
    have hsplit : ws = (us ++ [v]) ++ w :: vs := by rw [heq]; simp
    rw [hsplit, result_addAll_append] at hfull ⊢
    rcases hnew.addAll (by decide) (hasc _ hup) with ⟨l, life, hr, hlife, hb⟩ | hr | ⟨hr, hle⟩
    · have hord := hb.ordered
      have hlast : l.automaton.lastWord = v := by
        rw [hord.lastWord_eq hlife]
        simp
      have hadd := add_of_lt (w := w) (hord.lifecycle_eq ▸ hlife) (hlast ▸ hlt)
      rw [hr, ok_bind, addAll_cons_of_error hadd, hlast]
      exact .inl rfl
    · rw [hr] at hfull
      exact absurd rfl hfull
    · rw [hr]
      refine .inr ⟨rfl, ?_⟩
      rw [← hsplit]
      exact hcount _ (by rw [hsplit]; exact List.subset_append_left ..) hle

/-- Two words in order become their lexicon, which has two states. -/
theorem ofWords_of_two_words : ∃ l : Lexicon UInt8,
    (ofWords 0 [[7], [9]]).result = .ok l ∧ l.stateCount = 2 ∧ Batch [[7], [9]] l := by
  have hrun : stateCount <$> (ofWords 0 [([7] : Word UInt8), [9]]).result = .ok 2 := by cbv
  obtain ⟨l, hr, hcount⟩ := map_eq_ok_iff.1 hrun
  have hasc : Ascending [([7] : Word UInt8), [9]] := by decide
  rcases (ofWords_spec 0 [[7], [9]] (by simp [hr])).1 hasc with ⟨l', hr', hb⟩ | ⟨hr', -⟩
  · rw [hr] at hr'
    cases hr'
    exact ⟨l, hr, hcount, hb⟩
  · rw [hr] at hr'
    cases hr'

end Lexicon

end WordGraph
