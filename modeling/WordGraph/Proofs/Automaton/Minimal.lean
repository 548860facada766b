import Mathlib.Data.List.Sort
import WordGraph.Proofs.Automaton.Add

/-!
# Minimality

Kinds tell states apart by the identifiers of their children. Where every state is the registered one
of its kind, they tell them apart by the words accepted from them: by induction along the edges, the
children that two such states have for one symbol are the same state.

* `Sound.eq_of_accepts_iff` — off the path, states that accept the same words are the same
* `Sound.eq_root_of_accepts_iff` — no state but the start accepts what the start state accepts
-/

namespace WordGraph.Automaton

open Arena

variable {σ : Type} [Symbol σ] {g : Automaton σ} {s t u : StateId} {c : σ}

/-- Tables with the same edges are the same. -/
theorem edgeTable_ext {x y : EdgeTable σ} (h : ∀ c t, (c, t) ∈ x.edges ↔ (c, t) ∈ y.edges) :
    x = y := by
  have : Std.Antisymm fun e e' : σ × StateId => e.1 < e'.1 :=
    ⟨fun _ _ h h' => absurd h' (Symbol.not_lt_of_lt h)⟩
  have : Std.Irrefl fun e e' : σ × StateId => e.1 < e'.1 := ⟨fun e => Symbol.lt_irrefl e.1⟩
  exact EdgeTable.ext (x.sorted.eq_of_mem_iff y.sorted fun e => h e.1 e.2)

namespace Sound

/-- Off the path, an edge from one of two states that accept the same words has a counterpart from
the other that leads to a state with the same words. -/
theorem exists_edge_of_accepts_iff (hg : g.Sound) (hs : s ∉ g.pathStates)
    (h : ∀ w, g.arena.Accepts s w ↔ g.arena.Accepts t w) (he : g.arena.Edge s c u) :
    ∃ v, g.arena.Edge t c v ∧ ∀ w, g.arena.Accepts u w ↔ g.arena.Accepts v w := by
  obtain ⟨w, hw⟩ := hg.accepts (hg.edge_live he) (hg.off_path hs he)
  obtain ⟨v, hv, -⟩ := accepts_cons_iff.1 ((h (c :: w)).1 (he.accepts_cons_iff.2 hw))
  exact ⟨v, hv, fun w => by rw [← he.accepts_cons_iff, ← hv.accepts_cons_iff, h]⟩

/-- **Off the path, states that accept the same words are the same.** -/
theorem eq_of_accepts_iff (hg : g.Sound) (hs : g.arena.isLive s) (ht : g.arena.isLive t)
    (hs' : s ∉ g.pathStates) (ht' : t ∉ g.pathStates)
    (h : ∀ w, g.arena.Accepts s w ↔ g.arena.Accepts t w) : s = t := by
  obtain ⟨rank, hr⟩ := hg.ranked
  -- the children of the one state have a lower rank than it
  induction hn : rank s using Nat.strong_induction_on generalizing s t with
  | _ n ih =>
    obtain ⟨x, hx⟩ := isLive_iff.1 hs
    obtain ⟨y, hy⟩ := isLive_iff.1 ht
    have hchild : ∀ {c u}, g.arena.Edge s c u → g.arena.Edge t c u := by
      intro c u he
      obtain ⟨v, hv, hw⟩ := hg.exists_edge_of_accepts_iff hs' h he
      rwa [ih _ (hn ▸ hr he) (hg.edge_live he) (hg.edge_live hv) (hg.off_path hs' he)
        (hg.off_path ht' hv) hw rfl]
    have hchild' : ∀ {c u}, g.arena.Edge t c u → g.arena.Edge s c u := by
      intro c u he
      obtain ⟨v, hv, -⟩ := hg.exists_edge_of_accepts_iff ht' (fun w => (h w).symm) he
      rwa [he.unique (hchild hv)]
    have hfinal : x.isFinal = y.isFinal := by
      rw [Bool.eq_iff_iff, ← accepts_nil_iff_of_get? hx, ← accepts_nil_iff_of_get? hy, h]
    have hedges : x.edges = y.edges := by
      refine edgeTable_ext fun c u => ?_
      rw [← edge_iff_mem hx, ← edge_iff_mem hy]
      exact ⟨hchild, hchild'⟩
    have hkind : x.fingerprint = y.fingerprint := by
      rw [State.fingerprint, hfinal, hedges, State.fingerprint]
    -- both are the registered state of one kind
    have := hg.registered hx hs'
    rw [hkind, hg.registered hy ht'] at this
    exact (Option.some.inj this).symm

/-- **No state behind the start accepts what the start state accepts.** The words from the start are
longer. -/
theorem eq_root_of_accepts_iff (hg : g.Sound) (hprod : g.Productive)
    (ht : g.arena.Reaches g.root t)
    (h : ∀ w, g.arena.Accepts g.root w ↔ g.arena.Accepts t w) : t = g.root := by
  by_contra hne
  obtain ⟨u, hu⟩ := ht
  obtain ⟨rank, hr⟩ := hg.ranked
  obtain ⟨w, hw⟩ := hg.exists_accepts hprod (hg.isLive_of_reaches hg.root_live ⟨u, hu⟩) hne
  have hpos : 0 < u.length := by
    refine List.length_pos_of_ne_nil ?_
    rintro rfl
    exact hne (path_nil_iff.1 hu).symm
  -- the way to `t` can be put in front of an accepted word any number of times
  have hlong : ∀ n, ∃ w, g.arena.Accepts t w ∧ n ≤ w.length := by
    intro n
    induction n with
    | zero => exact ⟨w, hw, Nat.zero_le _⟩
    | succ n ih =>
      obtain ⟨v, hv, hn⟩ := ih
      refine ⟨u ++ v, (h _).1 ((accepts_append_iff hu).2 hv), ?_⟩
      rw [List.length_append]
      omega
  obtain ⟨v, hv, hn⟩ := hlong (rank t + 1)
  have := hr.length_le_of_accepts hv
  omega

end Sound

end WordGraph.Automaton
