import Mathlib.Data.List.Forall2
import Mathlib.Data.List.Sort
import WordGraph.Proofs.Arena.Edge

/-!
# Matching graphs

The states of two graphs may correspond to each other, so that matching states have the same end and
matching edges. Then whatever is found by following edges in the one graph is found in the other.

* `Matching` — states of two graphs that correspond to each other
* `Matching.path`, `Matching.accepts_iff`, `Matching.dag` — what matching states have in common
* `Matching.idxOf_eq` — in corresponding lists, states that correspond stand at one place
-/

namespace WordGraph.Arena

variable {σ : Type} [Symbol σ] {a a' : Arena σ} {s s' t t' : StateId} {c : σ} {w : Word σ}
  {order order' : List StateId} {r : StateId → StateId → Prop} {x x' : State σ}

/-- States of two graphs correspond to each other: each to one at most, with the same end and with
edges for the same symbols that lead to states which correspond to each other. -/
structure Matching (a a' : Arena σ) (r : StateId → StateId → Prop) : Prop where
  state : ∀ {s s'}, r s s' → ∃ x x', a.get? s = some x ∧ a'.get? s' = some x' ∧
    x.isFinal = x'.isFinal ∧
    List.Forall₂ (fun e e' => e.1 = e'.1 ∧ r e.2 e'.2) x.edges.edges x'.edges.edges
  left_unique : ∀ {s t s'}, r s s' → r t s' → s = t
  right_unique : ∀ {s s' t'}, r s s' → r s t' → s' = t'

theorem exists_mem_of_forall₂ {α β : Type} {p : α → β → Prop} {l : List α} {l' : List β} {b : α}
    (h : List.Forall₂ p l l') (hb : b ∈ l) : ∃ b' ∈ l', p b b' := by
  induction h with
  | nil => cases hb
  | cons hp _ ih =>
    rcases List.mem_cons.1 hb with rfl | hb
    · exact ⟨_, List.mem_cons_self .., hp⟩
    · obtain ⟨b', hb', hp'⟩ := ih hb
      exact ⟨b', List.mem_cons_of_mem _ hb', hp'⟩

theorem map_eq_of_forall₂ {α β γ : Type} {p : α → β → Prop} {f : α → γ} {g : β → γ} {l : List α}
    {l' : List β} (h : List.Forall₂ p l l') (hfg : ∀ b ∈ l, ∀ b' ∈ l', p b b' → f b = g b') :
    l.map f = l'.map g := by
  induction h with
  | nil => rfl
  | cons hp _ ih =>
    rw [List.map_cons, List.map_cons, hfg _ (List.mem_cons_self ..) _ (List.mem_cons_self ..) hp,
      ih fun b hb b' hb' => hfg b (List.mem_cons_of_mem _ hb) b' (List.mem_cons_of_mem _ hb')]

/-- Two tables with edges for the same symbols list their edges side by side. -/
theorem forall₂_of_symbols (hc : ∀ c, (∃ t, (c, t) ∈ x.edges.edges) ↔ ∃ t, (c, t) ∈ x'.edges.edges)
    (hr : ∀ {c t t'}, (c, t) ∈ x.edges.edges → (c, t') ∈ x'.edges.edges → r t t') :
    List.Forall₂ (fun e e' => e.1 = e'.1 ∧ r e.2 e'.2) x.edges.edges x'.edges.edges := by
  have hsorted : ∀ y : State σ, (y.edges.edges.map Prod.fst).Pairwise (· < ·) := fun y =>
    List.pairwise_map.2 y.edges.sorted
  have hsymbols : x.edges.edges.map Prod.fst = x'.edges.edges.map Prod.fst := by
    have : Std.Antisymm fun c d : σ => c < d := ⟨fun _ _ h h' => absurd h' (Symbol.not_lt_of_lt h)⟩
    refine (hsorted x).eq_of_mem_iff (hsorted x') fun c => ?_
    simpa using hc c
  revert hr hsymbols
  generalize x.edges.edges = es
  generalize x'.edges.edges = es'
  intro hr hsymbols
  induction es generalizing es' with
  | nil =>
    rw [List.map_nil, eq_comm, List.map_eq_nil_iff] at hsymbols
    rw [hsymbols]
    exact .nil
  | cons e es ih =>
    cases es' with
    | nil => cases hsymbols
    | cons e' es' =>
      obtain ⟨c, t⟩ := e
      obtain ⟨c', t'⟩ := e'
      obtain ⟨rfl, htail⟩ : c = c' ∧ es.map Prod.fst = es'.map Prod.fst := by
        simpa using hsymbols
      refine .cons ⟨rfl, hr (List.mem_cons_self ..) (List.mem_cons_self ..)⟩ (ih _ ?_ htail)
      exact fun h h' => hr (List.mem_cons_of_mem _ h) (List.mem_cons_of_mem _ h')

namespace Matching

theorem symm (h : Matching a a' r) : Matching a' a fun s' s => r s s' where
  state hss := by
    obtain ⟨x, x', hx, hx', hend, hedges⟩ := h.state hss
    refine ⟨x', x, hx', hx, hend.symm, hedges.flip.imp fun e e' he => ⟨he.1.symm, he.2⟩⟩
  left_unique := h.right_unique
  right_unique := h.left_unique

/-! ## What matching states have in common -/

theorem edge (h : Matching a a' r) (hss : r s s') (he : a.Edge s c t) :
    ∃ t', a'.Edge s' c t' ∧ r t t' := by
  obtain ⟨x, x', hx, hx', -, hedges⟩ := h.state hss
  obtain ⟨⟨d, t'⟩, hmem, rfl, htt⟩ := exists_mem_of_forall₂ hedges ((edge_iff_mem hx).1 he)
  exact ⟨t', (edge_iff_mem hx').2 hmem, htt⟩

/-- A word leads to matching states. -/
theorem path (h : Matching a a' r) (hss : r s s') (hp : a.Path s w t) :
    ∃ t', a'.Path s' w t' ∧ r t t' := by
  induction w generalizing s s' with
  | nil =>
    obtain rfl := path_nil_iff.1 hp
    exact ⟨s', .nil s', hss⟩
  | cons c w ih =>
    obtain ⟨u, he, hp⟩ := path_cons_iff_edge.1 hp
    obtain ⟨u', he', huu⟩ := h.edge hss he
    obtain ⟨t', hp', htt⟩ := ih huu hp
    exact ⟨t', path_cons_iff_edge.2 ⟨u', he', hp'⟩, htt⟩

theorem accepts (h : Matching a a' r) (hss : r s s') (hw : a.Accepts s w) : a'.Accepts s' w := by
  obtain ⟨t, x, hp, hx, hf⟩ := hw
  obtain ⟨t', hp', htt⟩ := h.path hss hp
  obtain ⟨y, x', hy, hx', hend, -⟩ := h.state htt
  rw [hx] at hy
  cases hy
  exact ⟨t', x', hp', hx', hend ▸ hf⟩

/-- From matching states the same words are accepted. -/
theorem accepts_iff (h : Matching a a' r) (hss : r s s') : a.Accepts s w ↔ a'.Accepts s' w :=
  ⟨h.accepts hss, h.symm.accepts hss⟩

/-- What lies behind a state that matches one without cycles behind it has no cycles either. -/
theorem dag (h : Matching a a' r) (hss : r s s') (hs : a.Dag s) : a'.Dag s' := by
  refine ⟨fun t' ⟨w, hp⟩ => ?_, fun t' w ⟨v, hp⟩ hcycle => ?_⟩
  · obtain ⟨t, -, htt⟩ := h.symm.path hss hp
    obtain ⟨-, x', -, hx', -⟩ := h.state htt
    exact isLive_of_get? hx'
  · obtain ⟨t, hpt, htt⟩ := h.symm.path hss hp
    obtain ⟨u, hpu, htu⟩ := h.symm.path htt hcycle
    obtain rfl := h.left_unique htt htu
    exact hs.acyclic t w ⟨v, hpt⟩ hpu

/-! ## Corresponding lists -/

/-- A state is in a list just if the state that corresponds to it is in a list of corresponding
states. -/
theorem mem_iff (h : Matching a a' r) (hss : r s s') (ho : List.Forall₂ r order order') :
    s ∈ order ↔ s' ∈ order' := by
  induction ho with
  | nil => simp
  | @cons t t' _ _ htt _ ih =>
    rw [List.mem_cons, List.mem_cons, ih]
    refine or_congr_left ⟨?_, ?_⟩
    · rintro rfl
      exact h.right_unique hss htt
    · rintro rfl
      exact h.left_unique hss htt

/-- In corresponding lists, states that correspond stand at one place. -/
theorem idxOf_eq (h : Matching a a' r) (hss : r s s') (ho : List.Forall₂ r order order') :
    order.idxOf s = order'.idxOf s' := by
  induction ho with
  | nil => rfl
  | @cons t t' _ _ htt _ ih =>
    by_cases hs : t = s
    · obtain rfl := hs
      obtain rfl := h.right_unique hss htt
      rw [List.idxOf_cons_self, List.idxOf_cons_self]
    · have hs' : t' ≠ s' := by
        rintro rfl
        exact hs (h.left_unique htt hss)
      rw [List.idxOf_cons_ne _ hs, List.idxOf_cons_ne _ hs', ih]

end Matching

end WordGraph.Arena
