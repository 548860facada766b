import Mathlib
import WordGraph.Proofs.Arena.Walk
import WordGraph.Proofs.Lexicon.Resume

/-!
# Questions about prefixes

A walk looks at the edges alone and not at the words that lie behind them. Its answers are about the
words of a lexicon all the same, because some word is accepted behind every edge, at any time: while
words are being added, when one out of order has dropped a branch, and after a dump has been loaded.

* `Arena.exists_isGreatest_walk` — a walk follows as much of a word as leads somewhere
* `Valid.exists_path_iff` — a word leads somewhere if some word of the lexicon starts with it
* `Reachable.prefix_answers` — what a lexicon answers about a word and its prefixes
-/

namespace WordGraph

variable {σ : Type} [Symbol σ]

namespace Arena

variable {a : Arena σ} {s : StateId}

/-- A walk follows as many symbols of a word as lead somewhere. -/
theorem exists_isGreatest_walk (h : a.Intact s) (w : Word σ) :
    ∃ m t, a.walk s w = .ok (m, t) ∧
      IsGreatest {n | n ≤ w.length ∧ ∃ u, a.Path s (w.take n) u} m := by
  obtain ⟨m, t, hrun, hle, hp, hstop⟩ := exists_walk h w
  refine ⟨m, t, hrun, ⟨hle, t, hp⟩, ?_⟩
  rintro n ⟨hn, u, hq⟩
  by_contra! hlt
  -- a longer path would follow the symbol at which the walk has stopped
  have hm : m < w.length := Nat.lt_of_lt_of_le hlt hn
  obtain ⟨rest, hrest⟩ : w.take (m + 1) <+: w.take n := List.take_prefix_take_left hlt
  rw [← hrest, List.take_succ_eq_append_getElem hm, List.append_assoc] at hq
  obtain ⟨t', hp', hq⟩ := path_append_iff.1 hq
  obtain rfl := hp.unique hp'
  obtain ⟨v, he, -⟩ := path_cons_iff_edge.1 hq
  exact hstop _ v (List.getElem?_eq_getElem hm) he

end Arena

namespace Lexicon

open Arena

variable {l : Lexicon σ} {w : Word σ}

/-- **A word that is not empty leads somewhere just if some word of the lexicon starts with it.** -/
theorem Valid.exists_path_iff (h : l.Valid) (hw : w ≠ []) :
    (∃ t, l.arena.Path l.root w t) ↔ ∃ v, l.Holds v ∧ w <+: v := by
  constructor
  · rintro ⟨t, hp⟩
    obtain ⟨p, c, rfl⟩ := w.eq_nil_or_concat'.resolve_left hw
    obtain ⟨s, -, hlast⟩ := path_append_iff.1 hp
    obtain ⟨u, he, hu⟩ := path_cons_iff_edge.1 hlast
    obtain rfl := path_nil_iff.1 hu
    obtain ⟨v, hv⟩ := h.exists_accepts_of_edge he
    exact ⟨_, (accepts_append_iff hp).2 hv, List.prefix_append _ v⟩
  · rintro ⟨_, ⟨u, x, hp, -⟩, v, rfl⟩
    obtain ⟨t, hp, -⟩ := path_append_iff.1 hp
    exact ⟨t, hp⟩

/-- What is followed of a word is told by the words of the lexicon. -/
theorem Valid.exists_isGreatest_walk (h : l.Valid) (w : Word σ) :
    ∃ m t, l.arena.walk l.root w = .ok (m, t) ∧
      IsGreatest {n | n ≤ w.length ∧ (n = 0 ∨ ∃ v, l.Holds v ∧ w.take n <+: v)} m := by
  have hpaths : ∀ n ≤ w.length, (∃ u, l.arena.Path l.root (w.take n) u) ↔
      (n = 0 ∨ ∃ v, l.Holds v ∧ w.take n <+: v) := by
    intro n hn
    rcases Nat.eq_zero_or_pos n with rfl | hpos
    · simp
    · have hne : w.take n ≠ [] := by
        rw [Ne, List.take_eq_nil_iff, ← List.length_eq_zero_iff]
        omega
      rw [h.exists_path_iff hne, or_iff_right (Nat.ne_of_gt hpos)]
  obtain ⟨m, t, hrun, hm⟩ := Arena.exists_isGreatest_walk h.sound.dag_root.intact w
  rw [Set.ext fun n => and_congr_right (hpaths n)] at hm
  exact ⟨m, t, hrun, hm⟩

/-- A lexicon has a prefix if it is not empty and some word starts with it. -/
theorem Valid.exists_hasPrefix (h : l.Valid) (w : Word σ) :
    ∃ b, l.hasPrefix w = .ok b ∧ (b ↔ w ≠ [] ∧ ∃ v, l.Holds v ∧ w <+: v) := by
  unfold hasPrefix
  cases w with
  | nil => exact ⟨false, rfl, by simp⟩
  | cons c w =>
    obtain ⟨m, t, hrun, ⟨hle, hm⟩, hmax⟩ := h.exists_isGreatest_walk (c :: w)
    refine ⟨m == (c :: w).length, by rw [hrun]; rfl, ?_⟩
    rw [beq_iff_eq, and_iff_right (List.cons_ne_nil c w)]
    constructor
    · rintro rfl
      rw [List.take_length] at hm
      exact hm.resolve_left (by simp)
    · intro hv
      exact Nat.le_antisymm hle (hmax ⟨Nat.le_refl _, .inr (by rwa [List.take_length])⟩)

/-- **Questions about a word and its prefixes are answered by the words of a lexicon**, whatever
operations have led to it. -/
theorem Reachable.prefix_answers (h : l.Reachable) (w : Word σ) :
    (∃ b, l.contains w = .ok b ∧ (b ↔ l.Holds w)) ∧
      (∃ b, l.hasPrefix w = .ok b ∧ (b ↔ w ≠ [] ∧ ∃ v, l.Holds v ∧ w <+: v)) ∧
      ∃ n, l.longestPrefix w = .ok n ∧
        IsGreatest {n | n ≤ w.length ∧ (n = 0 ∨ ∃ v, l.Holds v ∧ w.take n <+: v)} n := by
  refine ⟨exists_contains h.valid.sound.dag_root.intact w, h.valid.exists_hasPrefix w, ?_⟩
  obtain ⟨m, t, hrun, hm⟩ := h.valid.exists_isGreatest_walk w
  exact ⟨m, by rw [longestPrefix, hrun]; rfl, hm⟩

/-- A word out of order drops the only word that goes on with a 2 behind the 1. -/
theorem prefix_answers_of_dropped :
    ∃ l : Lexicon UInt8, l = (new 0).after [.add [1, 2], .add [2], .addUnchecked [1, 3]] ∧
      ¬l.Holds [1, 2] ∧ (∃ v, l.Holds v ∧ [1] <+: v) ∧ (¬∃ v, l.Holds v ∧ [1, 2] <+: v) ∧
      IsGreatest {n | n ≤ 2 ∧ (n = 0 ∨ ∃ v, l.Holds v ∧ [1, 2].take n <+: v)} 1 := by
  obtain ⟨l, hl⟩ : ∃ l : Lexicon UInt8,
      l = (new 0).after [.add [1, 2], .add [2], .addUnchecked [1, 3]] := ⟨_, rfl⟩
  have hrun : (l.contains [1, 2], l.hasPrefix [1], l.hasPrefix [1, 2], l.longestPrefix [1, 2]) =
      (.ok false, .ok true, .ok false, .ok 1) := by
    subst hl
    cbv
  simp only [Prod.mk.injEq] at hrun
  obtain ⟨hcontains, hone, htwo, hlongest⟩ := hrun
  have hreach : l.Reachable := hl ▸ .after (.new 0) _
  obtain ⟨⟨b, hb, hword⟩, ⟨b₂, hb₂, hprefix₂⟩, n, hn, hgreatest⟩ := hreach.prefix_answers [1, 2]
  obtain ⟨-, ⟨b₁, hb₁, hprefix₁⟩, -⟩ := hreach.prefix_answers [1]
  obtain rfl := Except.ok.inj (hb.symm.trans hcontains)
  obtain rfl := Except.ok.inj (hb₁.symm.trans hone)
  obtain rfl := Except.ok.inj (hb₂.symm.trans htwo)
  obtain rfl := Except.ok.inj (hn.symm.trans hlongest)
  exact ⟨l, hl, by simpa using hword, (hprefix₁.1 rfl).2, by simpa using hprefix₂, hgreatest⟩

end Lexicon

end WordGraph
