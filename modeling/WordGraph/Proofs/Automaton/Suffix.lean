import Mathlib
import WordGraph.Proofs.Automaton.Builder

/-!
# What settling makes of an automaton

Settling works on what is nobody else's. It leaves the registered states alone and takes no word from any
state that stays. Each state that it takes off the path becomes a registered one, or it gives way to the
registered one of its kind; then its slot is free, and nothing mentions it any more.

* `isLive_or_mem_free_of_settle` — no slot gets lost
* `Freed` — a slot that nothing mentions
* `SuffixSettled` — what settling the path from some depth on does
* `Settleable.suffix_settled` — settling runs through and does that
-/

namespace WordGraph.Automaton

open Arena

variable {σ : Type} [Symbol σ] {g g' : Automaton σ} {a a' : Arena σ} {r r' : Register σ}
  {s t u : StateId} {c : σ} {k : Nat} {p : List (σ × StateId)} {ms ms' : List (Merge σ)}

/-! ## The slots of the states that go -/

/-- A slot that holds a state or is free does so, or is, whichever state is merged. -/
theorem isLive_or_mem_free_of_merge {old : Option StateId} (h : a.setEdge s c t = .ok (old, a'))
    (hu : a.isLive u ∨ u ∈ a.free) (v : StateId) :
    (a'.delete v).isLive u ∨ u ∈ (a'.delete v).free := by
  have hfree : a'.free = a.free := by
    obtain ⟨-, x, -, -, rfl⟩ := setEdge_eq_ok_iff.1 h
    rfl
  rw [← isLive_of_setEdge_iff h, ← hfree] at hu
  rw [free_delete]
  rcases hu with hu | hu
  · by_cases huv : u = v
    · subst huv
      simp [hu]
    · refine .inl (isLive_iff.2 ?_)
      rw [get?_delete, if_neg huv]
      exact isLive_iff.1 hu
  · refine .inr ?_
    split
    · exact List.mem_cons_of_mem _ hu
    · exact hu

theorem isLive_or_mem_free_of_settleLoop (h : settleLoop a r s ms p = .ok (a', r', ms'))
    (hu : a.isLive u ∨ u ∈ a.free) : a'.isLive u ∨ u ∈ a'.free := by
  induction p generalizing a r ms with
  | nil =>
    cases h
    exact hu
  | cons e p ih =>
    obtain ⟨c, v⟩ := e
    simp only [settleLoop, bind_eq_ok_iff] at h
    obtain ⟨o, -, h⟩ := h
    cases o with
    | some t =>
      simp only [bind_eq_ok_iff] at h
      obtain ⟨⟨old, a₁⟩, hset, h⟩ := h
      exact ih h (isLive_or_mem_free_of_merge hset hu v)
    | none =>
      simp only [bind_eq_ok_iff] at h
      obtain ⟨_, -, h⟩ := h
      exact ih h hu

/-- **No slot gets lost**: one that holds a state or is free still does or is. -/
theorem isLive_or_mem_free_of_settle (h : g.settle k = .ok (g', ms))
    (hu : g.arena.isLive u ∨ u ∈ g.arena.free) : g'.arena.isLive u ∨ u ∈ g'.arena.free := by
  simp only [settle, bind_eq_ok_iff] at h
  obtain ⟨⟨a, r, ms₁⟩, hloop, h⟩ := h
  cases h
  exact isLive_or_mem_free_of_settleLoop hloop hu

/-- A free slot that nothing mentions: no edge leads to it, it is registered under no kind, and no kind
that is registered has an edge to it. -/
structure Freed (g : Automaton σ) (s : StateId) : Prop where
  mem_free : s ∈ g.arena.free
  get?_eq_none : g.arena.get? s = none
  not_edge : ∀ t c, ¬g.arena.Edge t c s
  not_registered : ∀ q, g.register.get? q ≠ some s
  not_mem_targets : ∀ q t, g.register.get? q = some t → s ∉ q.edges.targets

/-- Nothing mentions a free slot if the path can be settled. -/
theorem Settleable.freed (hg : g.Settleable) (hmem : s ∈ g.arena.free) (hs : ¬g.arena.isLive s) :
    g.Freed s where
  mem_free := hmem
  get?_eq_none := by simpa [Arena.isLive] using hs
  not_edge _ _ he := hs (hg.edge_live he)
  not_registered _ hr := by
    obtain ⟨-, x, hx, -⟩ := hg.get?_register_iff.1 hr
    exact hs (isLive_of_get? hx)
  not_mem_targets q t hr ht := by
    -- the edges of a kind that is registered are those of the registered state
    obtain ⟨-, x, hx, rfl⟩ := hg.get?_register_iff.1 hr
    obtain ⟨⟨c, u⟩, he, rfl⟩ := List.mem_map.1 ht
    exact hs (hg.edge_live ((edge_iff_mem hx).2 he))

/-! ## Settling the path from some depth on -/

/-- What settling the path from depth `k` on does: of the states, only those that it takes off the path
are touched, and these are registered or freed. -/
structure SuffixSettled (g g' : Automaton σ) (k : Nat) : Prop extends Settled g g' where
  path_eq : g'.path = g.path.take k
  settleable : g'.Settleable
  tidy : g.arena.Tidy → g'.arena.Tidy
  /-- The states that stay on the path are there, the start state among them. -/
  path_live : ∀ s ∈ g'.pathStates, g'.arena.isLive s
  /-- No state goes but those that are taken off the path. -/
  survives : ∀ s, g.arena.isLive s → s ∉ (g.path.drop k).map Prod.snd → g'.arena.isLive s
  /-- A state that is taken off the path is registered, or its slot is freed. -/
  popped : ∀ s ∈ (g.path.drop k).map Prod.snd,
    (∃ x, g'.arena.get? s = some x ∧ g'.register.get? x.fingerprint = some s) ∨ g'.Freed s

/-- A state on the path stays on it or is taken off, but not both. -/
theorem mem_pathStates_iff_of_take (hpath : g'.path = g.path.take k) (hroot : g'.root = g.root) :
    s ∈ g.pathStates ↔ s ∈ g'.pathStates ∨ s ∈ (g.path.drop k).map Prod.snd := by
  rw [pathStates, pathStates, hroot, hpath, ← List.mem_append, List.cons_append, ← List.map_append,
    List.take_append_drop]

theorem Chained.not_mem_pathStates_of_take (hg : g.Chained) (hpath : g'.path = g.path.take k)
    (hroot : g'.root = g.root) (hs : s ∈ (g.path.drop k).map Prod.snd) : s ∉ g'.pathStates := by
  have hnd := hg.nodup
  rw [pathStates, ← List.take_append_drop k g.path, List.map_append, ← List.cons_append,
    ← hpath, ← hroot] at hnd
  exact fun hmem => (List.nodup_append.1 hnd).2.2 s hmem s hs rfl

/-- **Settling the path from some depth on**, with assertions or without, runs through. It preserves every
language and disturbs nothing shared, and it answers whether the path got shorter. -/
theorem Settleable.suffix_settled (hg : g.Settleable) (hk : k ≤ g.path.length) :
    ∃ g' ms, g.settle k = .ok (g', ms) ∧
      (Builder.ofAutomaton g).settleSuffix k =
        .ok (decide (g'.path.length < g.path.length), Builder.ofAutomaton g') ∧
      SuffixSettled g g' k := by
  obtain ⟨g', ms, hrun, hset, hsettled, hpath⟩ := hg.settle_spec k
  have hroot := hsettled.root_eq
  refine ⟨g', ms, hrun, ?_, ⟨hsettled, hpath, hset, ?tidy, ?path_live, ?survives, ?popped⟩⟩
  · have hshort : (k < g.path.length) = (g'.path.length < g.path.length) := by
      rw [hpath, List.length_take]
      exact propext (by omega)
    rw [Builder.settleSuffix_ofAutomaton g hk, hrun]
    simp only [hshort]
    rfl
  case tidy => exact (steps_of_settle hrun).invariant Step.tidy
  case path_live => exact fun s hs => hset.isLive_of_mem_pathStates hs
  case survives =>
    intro s hs hnot
    by_cases hmem : s ∈ g.pathStates
    · exact hset.isLive_of_mem_pathStates
        (((mem_pathStates_iff_of_take hpath hroot).1 hmem).resolve_right hnot)
    · obtain ⟨x, hx⟩ := isLive_iff.1 hs
      have hr := hg.get?_register_iff.2 ⟨hmem, x, hx, rfl⟩
      exact isLive_of_get? ((hsettled.of_registered hr).2.trans hx)
  case popped =>
    intro s hs
    have hlive := hg.isLive_of_mem_pathStates ((mem_pathStates_iff_of_take hpath hroot).2 (.inr hs))
    by_cases hstays : g'.arena.isLive s
    · obtain ⟨x, hx⟩ := isLive_iff.1 hstays
      have hoff := hg.not_mem_pathStates_of_take hpath hroot hs
      exact .inl ⟨x, hx, hset.get?_register_iff.2 ⟨hoff, x, hx, rfl⟩⟩
    · have hmem := (isLive_or_mem_free_of_settle hrun (.inl hlive)).resolve_left hstays
      exact .inr (hset.freed hmem hstays)

/-- Two words end with one symbol. When the path of the second is settled, its last state gives way to that
of the first, and the one in front of it is registered. -/
theorem suffix_settled_of_two_words :
    ∃ g g' : Automaton UInt8, ∃ ms, g.Settleable ∧ g.path = [(3, ⟨3⟩), (4, ⟨4⟩)] ∧
      g.settle 0 = .ok (g', ms) ∧
      (Builder.ofAutomaton g).settleSuffix 0 = .ok (true, Builder.ofAutomaton g') ∧
      ms = [⟨⟨4⟩, ⟨2⟩, 4⟩] ∧ SuffixSettled g g' 0 := by
  have hadd : (do
      let (g₁, _) ← (initial : Automaton UInt8).add [1, 2]
      let (g, _) ← g₁.add [3, 4]
      let (_, ms) ← g.settle 0
      return (g.path, ms)) = Except.ok ([(3, ⟨3⟩), (4, ⟨4⟩)], [⟨⟨4⟩, ⟨2⟩, 4⟩]) := by cbv
  obtain ⟨⟨g₁, i₁, ms₁⟩, h₁, hadd⟩ := bind_eq_ok_iff.1 hadd
  obtain ⟨⟨g, i, ms⟩, h₂, hadd⟩ := bind_eq_ok_iff.1 hadd
  obtain ⟨⟨g', ms'⟩, h₃, hadd⟩ := bind_eq_ok_iff.1 hadd
  obtain ⟨hpath, hms⟩ := Prod.mk.inj (Except.ok.inj hadd)
  have hg : g.Settleable := ((initial_growing.add_ok h₁).growing.add_ok h₂).growing.settleable
  obtain ⟨g'', ms'', hrun, hbuilder, hsettled⟩ := hg.suffix_settled (Nat.zero_le _)
  obtain ⟨rfl, rfl⟩ := Prod.mk.inj (Except.ok.inj (h₃.symm.trans hrun))
  have hshort : g'.path.length < g.path.length := by
    rw [hsettled.path_eq, hpath]
    decide
  rw [decide_eq_true hshort] at hbuilder
  exact ⟨g, g', ms', hg, hpath, hrun, hbuilder, hms, hsettled⟩

end WordGraph.Automaton
