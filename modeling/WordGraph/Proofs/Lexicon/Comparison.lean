import Mathlib
import WordGraph.Lexicon.Comparison
import WordGraph.Proofs.Traversal.Search

/-!
# Lexicons are what words they hold

Comparing two lexicons and hashing them look at the number of words and at the words in the order in
which they come. Both hang on the words alone: not on where a lexicon is in its life, not on its graph,
which states are shared in it or out of reach, nor on what has led to it.

* `Valid.eq_iff_holds_iff` — two lexicons have the same list of words if they hold the same words
* `Compared` — what two lexicons answer when they are compared
* `Reachable.compared` — the answer is whether they hold the same words
-/

namespace WordGraph.Lexicon

open Arena

variable {σ : Type} [Symbol σ] {l m : Lexicon σ} {w : Word σ}

/-- Two lexicons list the same words, and as many, just if they hold the same words. -/
theorem Valid.eq_iff_holds_iff (h : l.Valid) (h' : m.Valid) :
    (l.size = m.size ∧ l.arena.listing l.root = m.arena.listing m.root) ↔
      ∀ w, l.Holds w ↔ m.Holds w := by
  constructor
  · rintro ⟨-, hlisting⟩ w
    rw [← h.mem_listing_iff, ← h'.mem_listing_iff, hlisting]
  · intro hw
    have hlisting := listing_congr h.sound.dag_root h'.sound.dag_root hw
    exact ⟨by rw [h.size_eq, h'.size_eq, hlisting], hlisting⟩

/-- A word is answered alike by two lexicons just if both hold it or neither does. -/
theorem Valid.contains_alike_iff (h : l.Valid) (h' : m.Valid) (w : Word σ) :
    (∃ b, l.contains w = .ok b ∧ m.contains w = .ok b) ↔ (l.Holds w ↔ m.Holds w) := by
  obtain ⟨b, hb, hbw⟩ := exists_contains h.sound.dag_root.intact w
  obtain ⟨b', hb', hbw'⟩ := exists_contains h'.sound.dag_root.intact w
  rw [hb, hb', ← hbw, ← hbw']
  constructor
  · rintro ⟨c, hc, hc'⟩
    rw [Except.ok.inj hc, Except.ok.inj hc']
  · intro hiff
    exact ⟨b, rfl, congrArg Except.ok (Bool.eq_iff_iff.2 hiff.symm)⟩

/-- What two lexicons answer when they are compared, if the answer is `b`. -/
structure Compared (l m : Lexicon σ) (b : Bool) : Prop where
  sameWords_eq : l.sameWords m = .ok b
  /-- Asking two searches for their words comes to the same answer. -/
  mem_compare : .ok b ∈ l.compare m
  /-- Lexicons are the same just if every word is answered alike, -/
  iff_contains : b ↔ ∀ w, ∃ isIn, l.contains w = .ok isIn ∧ m.contains w = .ok isIn
  /-- which is to say that they hold the same words. -/
  iff_holds : b ↔ ∀ w, l.Holds w ↔ m.Holds w
  /-- A hasher is fed the same by lexicons that are the same. -/
  hashFeed : b → ∃ feed, l.hashFeed = .ok feed ∧ m.hashFeed = .ok feed
  sameHash_eq : l.sameHash m = .ok b

/-- **Lexicons are the same just if they hold the same words**, whatever has led to them, and then they
hash alike. -/
theorem Reachable.compared (h : Reachable l) (h' : Reachable m) : ∃ b, Compared l m b := by
  have hdag := h.valid.sound.dag_root
  have hdag' := h'.valid.sound.dag_root
  have hiff := h.valid.eq_iff_holds_iff h'.valid
  refine ⟨decide (l.size = m.size ∧ l.arena.listing l.root = m.arena.listing m.root), ?_⟩
  constructor
  case sameWords_eq => exact Lexicon.sameWords_eq hdag hdag'
  case mem_compare =>
    unfold compare
    split
    · next hsize =>
      simpa only [hsize, true_and] using (Search.handsOut_all hdag).agree (Search.handsOut_all hdag')
    · next hsize => simp [hsize]
  case iff_contains =>
    simp only [h.valid.contains_alike_iff h'.valid]
    rw [decide_eq_true_iff, hiff]
  case iff_holds => rw [decide_eq_true_iff, hiff]
  case hashFeed =>
    intro hsame
    obtain ⟨hsize, hlisting⟩ := of_decide_eq_true hsame
    rw [hashFeed, hashFeed, hashInput, hashInput, words_eq hdag, words_eq hdag', hsize, hlisting]
    exact ⟨_, rfl, rfl⟩
  case sameHash_eq =>
    rw [sameHash, hashInput, hashInput, words_eq hdag, words_eq hdag']
    refine congrArg Except.ok (Bool.eq_iff_iff.2 ?_)
    rw [beq_iff_eq, Prod.mk.injEq, decide_eq_true_iff]

/-- A lexicon that has taken two words out of order and one that was closed behind them are the same,
though one has five states and the other three. -/
theorem compared_of_two_words :
    ∃ l m : Lexicon UInt8, l = (new 0).after [.addUnchecked [3, 2], .addUnchecked [1, 2]] ∧
      m = (new 1).after [.add [1, 2], .add [3, 2], .close] ∧
      l.stateCount = 5 ∧ m.stateCount = 3 ∧ Compared l m true := by
  obtain ⟨l, hl⟩ : ∃ l : Lexicon UInt8,
      l = (new 0).after [.addUnchecked [3, 2], .addUnchecked [1, 2]] := ⟨_, rfl⟩
  obtain ⟨m, hm⟩ : ∃ m : Lexicon UInt8, m = (new 1).after [.add [1, 2], .add [3, 2], .close] :=
    ⟨_, rfl⟩
  have hrun : (l.stateCount, m.stateCount, l.size, m.size, l.arena.listing l.root,
      m.arena.listing m.root) = (5, 3, 2, 2, [[1, 2], [3, 2]], [[1, 2], [3, 2]]) := by
    subst hl hm
    cbv
  simp only [Prod.mk.injEq] at hrun
  obtain ⟨hcount, hcount', hsize, hsize', hlisting, hlisting'⟩ := hrun
  have hreach : Reachable l := hl ▸ .after (.new 0) _
  have hreach' : Reachable m := hm ▸ .after (.new 1) _
  obtain ⟨b, hcompared⟩ := hreach.compared hreach'
  have hholds := (hreach.valid.eq_iff_holds_iff hreach'.valid).1
    ⟨hsize.trans hsize'.symm, hlisting.trans hlisting'.symm⟩
  obtain rfl : b = true := hcompared.iff_holds.2 hholds
  exact ⟨l, m, hl, hm, hcount, hcount', hcompared⟩

end WordGraph.Lexicon
