import Mathlib.Data.Finset.Card
import WordGraph.Arena

/-!
# Searching by recursion

A search that goes deep first is told by recursion: to visit a state is to mark it, to visit its
children in the order of the symbols, those apart that are marked by then, and to be done with it. The
search meets its states in one order and leaves them in another.

`depthFirst` says just this, without a stack. It has no answer where it comes to a slot that holds no
state. The searches of this library keep a stack of what is still to do; they list the states in these
two orders.

* `depthFirstFrom_of_mem`, `depthFirstFrom_of_not_mem` — the two turns that a search can take
* `depthFirstFrom_induction` — what holds along the recursion holds of what it answers

## Termination

What is marked stays marked, and a state that is visited has a slot that was not marked. So there are
fewer slots without a mark when its children are visited, and also afterwards, when the rest of the list
is. The second needs to be known while the recursion is being defined, so `depthFirstOn` answers with it.
-/

namespace WordGraph

/-- How far a search has come. -/
structure DepthFirst where
  /-- The states that are marked, in the order in which they were met. -/
  met : List StateId
  /-- The states that the search is done with, in the order in which it was. -/
  left : List StateId
  deriving DecidableEq, Repr

namespace Arena

variable {σ : Type} [Symbol σ] {a : Arena σ} {d d' : DepthFirst} {s : StateId} {ss : List StateId}
  {x : State σ}

/-- The number of slots that are not marked. -/
def unmarked (a : Arena σ) (d : DepthFirst) : Nat :=
  ((Finset.range a.slotCount).filter fun i => ⟨i⟩ ∉ d.met).card

/-- Marking a state leaves fewer slots without a mark. -/
theorem unmarked_lt (hx : a.get? s = some x) (hs : s ∉ d.met) (hsub : d.met ++ [s] ⊆ d'.met) :
    a.unmarked d' < a.unmarked d := by
  refine Finset.card_lt_card (Finset.ssubset_iff_of_subset ?_ |>.2 ⟨s.slot, ?_, ?_⟩)
  · intro i hi
    rw [Finset.mem_filter] at hi ⊢
    exact ⟨hi.1, fun hm => hi.2 (hsub (List.mem_append_left _ hm))⟩
  · exact Finset.mem_filter.2 ⟨Finset.mem_range.2 (slot_lt_of_get? hx), hs⟩
  · exact fun hi => (Finset.mem_filter.1 hi).2 (hsub (by simp))

/-- `depthFirstFrom`, together with the fact that what is marked stays marked. -/
def depthFirstOn (a : Arena σ) (d : DepthFirst) :
    List StateId → Option {d' : DepthFirst // d.met ⊆ d'.met}
  | [] => some ⟨d, List.Subset.refl _⟩
  | s :: ss =>
    if _hs : s ∈ d.met then a.depthFirstOn d ss
    else
      match _hx : a.get? s with
      | none => none
      | some x => do
        let ⟨d₁, h₁⟩ ← a.depthFirstOn ⟨d.met ++ [s], d.left⟩ x.edges.targets
        let ⟨d₂, h₂⟩ ← a.depthFirstOn ⟨d₁.met, d₁.left ++ [s]⟩ ss
        return ⟨d₂, fun t ht => h₂ (h₁ (List.mem_append_left _ ht))⟩
termination_by ss => (a.unmarked d, ss.length)
decreasing_by
  · exact Prod.Lex.right _ (by simp)
  · exact Prod.Lex.left _ _ (unmarked_lt _hx _hs (List.Subset.refl _))
  · exact Prod.Lex.left _ _ (unmarked_lt _hx _hs h₁)

/-- Visits the states of a list, those apart that are marked by then. -/
def depthFirstFrom (a : Arena σ) (d : DepthFirst) (ss : List StateId) : Option DepthFirst :=
  (a.depthFirstOn d ss).map Subtype.val

/-- Visits a state, nothing being marked before. -/
def depthFirst (a : Arena σ) (root : StateId) : Option DepthFirst :=
  a.depthFirstFrom ⟨[], []⟩ [root]

@[simp] theorem depthFirstFrom_nil (a : Arena σ) (d : DepthFirst) :
    a.depthFirstFrom d [] = some d := by
  rw [depthFirstFrom, depthFirstOn]
  rfl

/-- A marked state is passed over. -/
theorem depthFirstFrom_of_mem (h : s ∈ d.met) :
    a.depthFirstFrom d (s :: ss) = a.depthFirstFrom d ss := by
  rw [depthFirstFrom, depthFirstOn, dif_pos h]
  rfl

/-- A state that is not marked is visited, and its children with it. -/
theorem depthFirstFrom_of_not_mem (h : s ∉ d.met) (hx : a.get? s = some x) :
    a.depthFirstFrom d (s :: ss) =
      (a.depthFirstFrom ⟨d.met ++ [s], d.left⟩ x.edges.targets).bind fun d' =>
        a.depthFirstFrom ⟨d'.met, d'.left ++ [s]⟩ ss := by
  rw [depthFirstFrom, depthFirstOn, dif_neg h]
  split
  · next hnone => simp [hx] at hnone
  · next y hy =>
    obtain rfl : y = x := Option.some.inj (hy.symm.trans hx)
    simp only [depthFirstFrom, Option.bind_map]
    cases a.depthFirstOn ⟨d.met ++ [s], d.left⟩ y.edges.targets with
    | none => rfl
    | some d₁ => cases h₂ : a.depthFirstOn ⟨d₁.1.met, d₁.1.left ++ [s]⟩ ss <;> simp [h₂]

/-- There is no answer at a slot that holds no state. -/
theorem depthFirstFrom_of_get?_eq_none (h : s ∉ d.met) (hx : a.get? s = none) :
    a.depthFirstFrom d (s :: ss) = none := by
  rw [depthFirstFrom, depthFirstOn, dif_neg h]
  split
  · rfl
  · next y hy => simp [hx] at hy

theorem met_subset_of_depthFirstFrom (h : a.depthFirstFrom d ss = some d') : d.met ⊆ d'.met := by
  obtain ⟨d₁, -, rfl⟩ := Option.map_eq_some_iff.1 h
  exact d₁.2

/-- What holds of nothing to visit, and is kept by a marked state and by a visit, holds of whatever a
search comes to. -/
theorem depthFirstFrom_induction {motive : DepthFirst → List StateId → DepthFirst → Prop}
    (nil : ∀ d, motive d [] d)
    (skip : ∀ d s ss d', s ∈ d.met → motive d ss d' → motive d (s :: ss) d')
    (visit : ∀ d s ss x d₁ d', s ∉ d.met → a.get? s = some x →
      a.depthFirstFrom ⟨d.met ++ [s], d.left⟩ x.edges.targets = some d₁ →
      motive ⟨d.met ++ [s], d.left⟩ x.edges.targets d₁ →
      motive ⟨d₁.met, d₁.left ++ [s]⟩ ss d' → motive d (s :: ss) d')
    (h : a.depthFirstFrom d ss = some d') : motive d ss d' := by
  -- The outer induction serves the visits, the inner one the states that are passed over.
  induction hn : a.unmarked d using Nat.strong_induction_on generalizing d ss d' with
  | h n ih =>
    subst hn
    induction ss with
    | nil =>
      obtain rfl : d = d' := by simpa using h
      exact nil d
    | cons s ss ihss =>
      by_cases hs : s ∈ d.met
      · rw [depthFirstFrom_of_mem hs] at h
        exact skip d s ss d' hs (ihss h)
      · cases hx : a.get? s with
        | none => simp [depthFirstFrom_of_get?_eq_none hs hx] at h
        | some x =>
          rw [depthFirstFrom_of_not_mem hs hx] at h
          obtain ⟨d₁, h₁, h⟩ := Option.bind_eq_some_iff.1 h
          have hless : a.unmarked d₁ < a.unmarked d :=
            unmarked_lt hx hs (met_subset_of_depthFirstFrom h₁)
          exact visit d s ss x d₁ d' hs hx h₁
            (ih _ (unmarked_lt hx hs (List.Subset.refl _)) h₁ rfl) (ih _ hless h rfl)

end Arena

end WordGraph
