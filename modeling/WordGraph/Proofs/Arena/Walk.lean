import WordGraph.Lexicon.History
import WordGraph.Lexicon.Query
import WordGraph.Proofs.Arena.Edge

/-!
# Following a word

In a graph without dangling edges a word is followed as far as it leads, so a word that is followed
to a state at which words end is an accepted one.

* `exists_walk` — how far a word is followed
* `exists_contains` — whether a word is accepted
-/

namespace WordGraph

namespace Arena

variable {σ : Type} [Symbol σ] {a : Arena σ} {s t : StateId} {c : σ} {w : Word σ} {n : Nat}
  {x : State σ}

theorem target?_of_get? (hx : a.get? s = some x) (c : σ) :
    a.target? s c = .ok (x.edges.find? c) := by
  simp [target?, state, hx, bind, Except.bind, pure, Except.pure]

/-- A word is followed as far as there are edges for its symbols. -/
theorem exists_walkFrom (h : a.Intact s) (n : Nat) (w : Word σ) :
    ∃ m t, a.walkFrom n s w = .ok (n + m, t) ∧ m ≤ w.length ∧ a.Path s (w.take m) t ∧
      ∀ c u, w[m]? = some c → ¬a.Edge t c u := by
  induction w generalizing n s with
  | nil => exact ⟨0, s, rfl, Nat.le_refl _, .nil s, fun c u hc => nomatch hc⟩
  | cons c w ih =>
    obtain ⟨x, hx⟩ := isLive_iff.1 (h s (.refl s))
    rw [walkFrom, target?_of_get? hx]
    cases hc : x.edges.find? c with
    | none =>
      refine ⟨0, s, rfl, Nat.zero_le _, .nil s, fun d u hd he => ?_⟩
      cases hd
      obtain ⟨y, hy, hu⟩ := he
      rw [hx] at hy
      cases hy
      rw [hc] at hu
      cases hu
    | some t =>
      have he : a.Edge s c t := ⟨x, hx, hc⟩
      obtain ⟨m, u, hrun, hle, hp, hstop⟩ := ih (fun u hu => h u (he.reaches.trans hu)) (n + 1)
      refine ⟨m + 1, u, ?_, Nat.succ_le_succ hle, path_cons_iff_edge.2 ⟨t, he, hp⟩, hstop⟩
      rw [Nat.add_comm m 1, ← Nat.add_assoc]
      exact hrun

theorem exists_walk (h : a.Intact s) (w : Word σ) :
    ∃ m t, a.walk s w = .ok (m, t) ∧ m ≤ w.length ∧ a.Path s (w.take m) t ∧
      ∀ c u, w[m]? = some c → ¬a.Edge t c u := by
  simpa [walk] using exists_walkFrom h 0 w

end Arena

namespace Lexicon

open Arena

variable {σ : Type} [Symbol σ] {l : Lexicon σ}

/-- **A lexicon contains just the words that its graph accepts.** -/
theorem exists_contains (h : l.arena.Intact l.root) (w : Word σ) :
    ∃ b, l.contains w = .ok b ∧ (b ↔ l.Holds w) := by
  obtain ⟨m, t, hrun, hle, hp, hstop⟩ := exists_walk h w
  unfold contains
  rw [hrun]
  simp only [bind, Except.bind]
  split
  · next hm =>
    rw [hm, List.take_length] at hp
    obtain ⟨x, hx⟩ := isLive_iff.1 (h t ⟨w, hp⟩)
    refine ⟨x.isFinal, by simp [state_eq_ok_iff.2 hx, pure, Except.pure], ?_⟩
    have hw : w = w ++ [] := (List.append_nil w).symm
    rw [Holds, hw, accepts_append_iff hp, accepts_nil_iff_of_get? hx]
  · next hm =>
    refine ⟨false, rfl, ?_⟩
    simp only [Bool.false_eq_true, false_iff]
    -- the symbol that was not followed has no edge
    rintro ⟨u, x, hq, -⟩
    have hlt : m < w.length := Nat.lt_of_le_of_ne hle hm
    rw [← List.take_append_drop m w, List.drop_eq_getElem_cons hlt] at hq
    obtain ⟨t', hp', hq⟩ := path_append_iff.1 hq
    obtain rfl := hp.unique hp'
    obtain ⟨v, he, -⟩ := path_cons_iff_edge.1 hq
    exact hstop _ v (List.getElem?_eq_getElem hlt) he

end Lexicon

end WordGraph
