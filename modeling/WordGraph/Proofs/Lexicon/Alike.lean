import WordGraph.Proofs.Arena.Walk
import WordGraph.Proofs.Dump.Write
import WordGraph.Proofs.Numbering.Rank
import WordGraph.Proofs.Traversal.Words

/-!
# Lexicons that cannot be told apart

Two lexicons with the same words that are at the same point of their lives and have the same last word
answer all questions in the same way, whatever slots their states occupy and whatever states they hold
out of reach. A state in reach is told by the words accepted from it, unless it lies on the path of
the last word; there it is told by the one word that leads to it.

* `Alike` — the same words, the same life, the same last word
* `Alike.matching` — the states that a word leads to correspond to each other
* `Alike.contentsOf_eq` — dumps say the same
* `Agree` — the answers that two lexicons have in common
* `Alike.agree` — lexicons that cannot be told apart answer alike
-/

namespace WordGraph.Lexicon

open Arena Automaton Dump

variable {σ : Type} [Symbol σ] {l l' : Lexicon σ} {s s' t t' : StateId} {c : σ} {w v : Word σ}
  {states states' : List (StateId × State σ)}

/-- Two valid lexicons have the same words, life and last word. -/
structure Alike (l l' : Lexicon σ) : Prop where
  valid : l.Valid
  valid' : l'.Valid
  lifecycle_eq : l.lifecycle = l'.lifecycle
  lastWord_eq : l.automaton.lastWord = l'.automaton.lastWord
  holds_iff : ∀ w, l.Holds w ↔ l'.Holds w

/-- Some word leads to both of two states. -/
def Together (l l' : Lexicon σ) (s s' : StateId) : Prop :=
  ∃ w, l.arena.Path l.root w s ∧ l'.arena.Path l'.root w s'

namespace Alike

theorem symm (h : Alike l l') : Alike l' l :=
  ⟨h.valid', h.valid, h.lifecycle_eq.symm, h.lastWord_eq.symm, fun w => (h.holds_iff w).symm⟩

theorem trans {k : Lexicon σ} (h : Alike l l') (h' : Alike l' k) : Alike l k :=
  ⟨h.valid, h'.valid', h.lifecycle_eq.trans h'.lifecycle_eq, h.lastWord_eq.trans h'.lastWord_eq,
    fun w => (h.holds_iff w).trans (h'.holds_iff w)⟩

theorem listing_eq (h : Alike l l') : l.arena.listing l.root = l'.arena.listing l'.root :=
  listing_congr h.valid.sound.dag_root h.valid'.sound.dag_root h.holds_iff

theorem size_eq (h : Alike l l') : l.size = l'.size := by
  rw [h.valid.size_eq, h.valid'.size_eq, h.listing_eq]

theorem longest_eq (h : Alike l l') : l.longest = l'.longest := by
  obtain ⟨o, ho, hlen⟩ := h.valid.longest
  obtain ⟨o', ho', hlen'⟩ := h.valid'.longest
  rw [← hlen, ← hlen', ho.unique ((Longest.congr h.holds_iff).2 ho')]

/-! ## States that belong together -/

/-- From states that a word leads to the same words are accepted. -/
theorem accepts_iff (h : Alike l l') (hss : Together l l' s s') :
    l.arena.Accepts s v ↔ l'.arena.Accepts s' v := by
  obtain ⟨w, hp, hp'⟩ := hss
  rw [← accepts_append_iff hp, ← accepts_append_iff hp']
  exact h.holds_iff _

/-- A state lies on the path of the last word just if the state that belongs to it does. -/
theorem mem_pathStates (h : Alike l l') (hss : Together l l' s s')
    (hs : s ∈ l.automaton.pathStates) : s' ∈ l'.automaton.pathStates := by
  obtain ⟨w, hp, hp'⟩ := hss
  have hw := h.valid.sound.isPrefix_of_path hs hp
  rw [h.lastWord_eq] at hw
  exact h.valid'.sound.mem_pathStates_of_isPrefix hw hp'

/-- A state belongs to one state at most. -/
theorem eq_of_together (h : Alike l l') (hss : Together l l' s s') (hst : Together l l' s t') :
    s' = t' := by
  by_cases hs : s ∈ l.automaton.pathStates
  -- only one word leads to a state on the path
  · obtain ⟨w, hp, hp'⟩ := hss
    obtain ⟨v, hq, hq'⟩ := hst
    obtain rfl := h.valid.sound.eq_of_path hs hp hq
    exact hp'.unique hq'
  · have hoff : ∀ {u}, Together l l' s u → l'.arena.isLive u ∧ u ∉ l'.automaton.pathStates := by
      intro u hsu
      refine ⟨?_, fun hu => hs ?_⟩
      · obtain ⟨v, -, hq⟩ := hsu
        exact h.valid'.sound.dag_root.intact u ⟨v, hq⟩
      · obtain ⟨v, hq, hq'⟩ := hsu
        exact h.symm.mem_pathStates ⟨v, hq', hq⟩ hu
    exact h.valid'.sound.eq_of_accepts_iff (hoff hss).1 (hoff hst).1 (hoff hss).2 (hoff hst).2
      fun v => by rw [← h.accepts_iff hss, h.accepts_iff hst]

/-- A state has an edge just where the state that belongs to it has one. -/
theorem exists_edge (h : Alike l l') (hss : Together l l' s s') (he : l.arena.Edge s c t) :
    ∃ t', l'.arena.Edge s' c t' := by
  obtain ⟨v, hv⟩ := h.valid.exists_accepts_of_edge he
  obtain ⟨t', he', -⟩ := accepts_cons_iff.1 ((h.accepts_iff hss).1 (he.accepts_cons_iff.2 hv))
  exact ⟨t', he'⟩

/-- **The states that a word leads to correspond to each other.** -/
theorem matching (h : Alike l l') : Matching l.arena l'.arena (Together l l') where
  state := by
    intro s s' hss
    have hlive : l.arena.isLive s ∧ l'.arena.isLive s' := by
      obtain ⟨w, hp, hp'⟩ := hss
      exact ⟨h.valid.sound.dag_root.intact s ⟨w, hp⟩, h.valid'.sound.dag_root.intact s' ⟨w, hp'⟩⟩
    obtain ⟨x, hx⟩ := isLive_iff.1 hlive.1
    obtain ⟨x', hx'⟩ := isLive_iff.1 hlive.2
    refine ⟨x, x', hx, hx', ?_, forall₂_of_symbols (fun c => ?_) fun {c t t'} he he' => ?_⟩
    · rw [Bool.eq_iff_iff, ← accepts_nil_iff_of_get? hx, ← accepts_nil_iff_of_get? hx',
        h.accepts_iff hss]
    · simp only [← edge_iff_mem hx, ← edge_iff_mem hx']
      refine ⟨fun ⟨t, he⟩ => h.exists_edge hss he, fun ⟨t', he'⟩ => ?_⟩
      obtain ⟨w, hp, hp'⟩ := hss
      exact h.symm.exists_edge ⟨w, hp', hp⟩ he'
    · obtain ⟨w, hp, hp'⟩ := hss
      exact ⟨w ++ [c], hp.append ((edge_iff_mem hx).2 he).path,
        hp'.append ((edge_iff_mem hx').2 he').path⟩
  left_unique := by
    rintro s t s' ⟨w, hp, hp'⟩ ⟨v, hq, hq'⟩
    exact h.symm.eq_of_together ⟨w, hp', hp⟩ ⟨v, hq', hq⟩
  right_unique hss hst := h.eq_of_together hss hst

/-! ## Dumps -/

/-- The states in reach are listed side by side. -/
theorem forall₂_listed (h : Alike l l') (hs : Listed l.arena l.root states)
    (hs' : Listed l'.arena l'.root states') :
    List.Forall₂ (fun p p' => Together l l' p.1 p'.1) states states' := by
  obtain ⟨order, horder, hall⟩ := h.matching.preorder ⟨[], .nil _, .nil _⟩ hs.preorder_eq
  rw [hs'.preorder_eq] at horder
  cases horder
  rwa [List.forall₂_map_left_iff, List.forall₂_map_right_iff] at hall

/-- **Dumps of lexicons that are alike say the same.** -/
theorem contentsOf_eq (h : Alike l l') (hs : Listed l.arena l.root states)
    (hs' : Listed l'.arena l'.root states') : l.contentsOf states = l'.contentsOf states' := by
  have hall := h.forall₂_listed hs hs'
  have horder : List.Forall₂ (Together l l') (states.map Prod.fst) (states'.map Prod.fst) := by
    rwa [List.forall₂_map_left_iff, List.forall₂_map_right_iff]
  have hplace : ∀ {s s'}, Together l l' s s' →
      (states.map Prod.fst).idxOf s = (states'.map Prod.fst).idxOf s' :=
    fun hss => h.matching.idxOf_eq hss horder
  -- nodes and edges of states that belong together are the same
  have hsame : ∀ {p p'}, p ∈ states → p' ∈ states' → Together l l' p.1 p'.1 →
      (⟨p.2.isFinal, (l.arena.listing p.1).length⟩ : Node) =
        ⟨p'.2.isFinal, (l'.arena.listing p'.1).length⟩ ∧
      placedEdges (states.map Prod.fst) p = placedEdges (states'.map Prod.fst) p' := by
    intro p p' hp hp' hpp
    obtain ⟨x, x', hx, hx', hend, hedges⟩ := h.matching.state hpp
    rw [hs.get? p hp] at hx
    cases hx
    rw [hs'.get? p' hp'] at hx'
    cases hx'
    have hlisting : l.arena.listing p.1 = l'.arena.listing p'.1 := by
      obtain ⟨w, hq, hq'⟩ := hpp
      exact listing_congr (h.valid.sound.dag_root.of_reaches ⟨w, hq⟩)
        (h.valid'.sound.dag_root.of_reaches ⟨w, hq'⟩) fun v => h.accepts_iff ⟨w, hq, hq'⟩
    refine ⟨by rw [hend, hlisting], ?_⟩
    rw [placedEdges, placedEdges, hplace hpp]
    exact map_eq_of_forall₂ hedges fun e _ e' _ he => by rw [he.1, hplace he.2]
  have hnodes := map_eq_of_forall₂ hall fun p hp p' hp' hpp => (hsame hp hp' hpp).1
  have hedges : edgesAmong states = edgesAmong states' := by
    rw [edgesAmong, edgesAmong, List.flatMap_def, List.flatMap_def,
      map_eq_of_forall₂ hall fun p hp p' hp' hpp => (hsame hp hp' hpp).2]
  simp only [contentsOf, h.lifecycle_eq, h.size_eq, h.longest_eq, h.lastWord_eq, hnodes, hedges]

end Alike

/-! ## Answers -/

/-- Two lexicons give the same answers to all questions. -/
structure Agree [SymbolCode σ] (l l' : Lexicon σ) : Prop where
  size_eq : l.size = l'.size
  longest_eq : l.longest = l'.longest
  lifecycle_eq : l.lifecycle = l'.lifecycle
  words_eq : l.words = l'.words
  find_eq : ∀ p, (l.find p).words l.arena = (l'.find p).words l'.arena
  contains_eq : ∀ w, l.contains w = l'.contains w
  rank_eq : ∀ w, Prod.fst <$> (l.rank w).result = Prod.fst <$> (l'.rank w).result
  unrank_eq : ∀ i, Prod.fst <$> (l.unrank i).result = Prod.fst <$> (l'.unrank i).result
  dump_eq : Prod.fst <$> l.dump.result = Prod.fst <$> l'.dump.result

/-- **Lexicons that are alike answer alike.** -/
theorem Alike.agree [SymbolCode σ] (h : Alike l l') : Agree l l' where
  size_eq := h.size_eq
  longest_eq := h.longest_eq
  lifecycle_eq := h.lifecycle_eq
  words_eq := by
    rw [words_eq h.valid.sound.dag_root, words_eq h.valid'.sound.dag_root, h.listing_eq]
  find_eq p := by
    rw [words_find h.valid.sound.dag_root, words_find h.valid'.sound.dag_root, h.listing_eq]
  contains_eq w := by
    obtain ⟨b, hb, hiff⟩ := exists_contains h.valid.sound.dag_root.intact w
    obtain ⟨b', hb', hiff'⟩ := exists_contains h.valid'.sound.dag_root.intact w
    rw [hb, hb', Bool.eq_iff_iff.2 (hiff.trans ((h.holds_iff w).trans hiff'.symm))]
  rank_eq w := by
    obtain ⟨n, hn, -⟩ := h.valid.rank_spec w
    obtain ⟨n', hn', -⟩ := h.valid'.rank_spec w
    rw [hn, hn', h.listing_eq]
    rfl
  unrank_eq i := by
    obtain ⟨n, hn, -⟩ := h.valid.unrank_spec i
    obtain ⟨n', hn', -⟩ := h.valid'.unrank_spec i
    rw [hn, hn', h.listing_eq]
    rfl
  dump_eq := by
    obtain ⟨states, n, hs, hk, -⟩ := h.valid.contents_spec
    obtain ⟨states', n', hs', hk', -⟩ := h.valid'.contents_spec
    rw [dump_of_contents hk, dump_of_contents hk', h.contentsOf_eq hs hs']
    split <;> rfl

end WordGraph.Lexicon
