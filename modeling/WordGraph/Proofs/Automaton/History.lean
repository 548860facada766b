import WordGraph.Arena.History
import WordGraph.Automaton
import WordGraph.Proofs.Run

/-!
# Growing by operations on the arena

An automaton has no other way to its states than the operations of the arena: settling points edges and
deletes states, a chain is made of new states with an edge to each, and words are made to end at a state.
So what these operations keep is kept while an automaton grows.

* `steps_of_settle`, `steps_of_hang` — settling a path and hanging a chain on it
* `steps_of_add`, `steps_of_close` — adding a word and closing
-/

namespace WordGraph.Automaton

open Arena

variable {σ : Type} [Symbol σ] {g g' : Automaton σ} {a a' : Arena σ} {r r' : Register σ}
  {s t : StateId} {k : Nat} {p chain chain' : List (σ × StateId)} {ms ms' : List (Merge σ)}
  {b b' : Bool} {w : Word σ} {i : Insertion}

/-- A state that is merged has its edge pointed elsewhere and is deleted. -/
theorem steps_of_settleLoop (h : settleLoop a r s ms p = .ok (a', r', ms')) : Steps a a' := by
  induction p generalizing a r ms with
  | nil =>
    cases h
    exact .refl _
  | cons e p ih =>
    obtain ⟨c, u⟩ := e
    simp only [settleLoop, bind_eq_ok_iff] at h
    obtain ⟨o, -, h⟩ := h
    cases o with
    | some t =>
      simp only [bind_eq_ok_iff] at h
      obtain ⟨⟨old, a₁⟩, hset, h⟩ := h
      exact ((Step.setEdge hset).steps.trans (Step.delete a₁ u).steps).trans (ih h)
    | none =>
      simp only [bind_eq_ok_iff] at h
      obtain ⟨_, -, h⟩ := h
      exact ih h

theorem steps_of_settle (h : g.settle k = .ok (g', ms)) : Steps g.arena g'.arena := by
  simp only [settle, bind_eq_ok_iff] at h
  obtain ⟨⟨a, r, ms₁⟩, hloop, h⟩ := h
  cases h
  exact steps_of_settleLoop hloop

/-- A chain is made of new states. -/
theorem steps_of_hang (h : hang a s chain b w = .ok (a', t, chain', b')) : Steps a a' := by
  induction w generalizing a s chain b with
  | nil =>
    cases h
    exact .refl _
  | cons c w ih =>
    simp only [hang_cons, bind_eq_ok_iff] at h
    obtain ⟨⟨child, a₁⟩, hcreate, ⟨old, a₂⟩, hset, h⟩ := h
    exact ((Step.create hcreate).steps.trans (Step.setEdge hset).steps).trans (ih h)

theorem steps_of_add (h : g.add w = .ok (g', i, ms)) : Steps g.arena g'.arena := by
  simp only [add, addWithin, bind_eq_ok_iff] at h
  obtain ⟨⟨g₁, ms₁⟩, hsettle, h⟩ := h
  refine (steps_of_settle hsettle).trans ?_
  split at h
  · -- the word ends on the path of the last one
    simp only [bind_eq_ok_iff] at h
    obtain ⟨x, -, h⟩ := h
    split at h
    · cases h
      exact .refl _
    · simp only [bind_eq_ok_iff] at h
      obtain ⟨a, hfinal, h⟩ := h
      cases h
      exact (Step.setFinal hfinal).steps
  · simp only [bind_eq_ok_iff] at h
    obtain ⟨⟨a, t, chain, b⟩, hhang, a₁, hfinal, h⟩ := h
    cases h
    exact (steps_of_hang hhang).trans (Step.setFinal hfinal).steps

theorem steps_of_close (h : g.close = .ok (g', ms)) : Steps g.arena g'.arena := by
  simp only [close, bind_eq_ok_iff] at h
  obtain ⟨⟨g₁, ms₁⟩, hsettle, _, -, h⟩ := h
  have hsteps := steps_of_settle hsettle
  cases h
  exact hsteps

/-- The automaton that accepts nothing has one new state. -/
theorem steps_initial : Steps ∅ (initial : Automaton σ).arena := (Step.create create_empty).steps

end WordGraph.Automaton
