import Mathlib.Logic.Relation
import WordGraph.Arena

/-!
# How arenas come about

An arena starts without slots. States are made in it, linked, ended and deleted, in any order and any
number of times; an operation that faults leaves the arena as it is, so it is no step.

* `Arena.Step` — one operation
* `Arena.Steps` — any number of them
-/

namespace WordGraph.Arena

variable {σ : Type} [Symbol σ]

/-- An operation makes an arena from another. -/
inductive Step : Arena σ → Arena σ → Prop
  | create {a a' : Arena σ} {s : StateId} {isFinal : Bool} (h : a.create isFinal = .ok (s, a')) :
      Step a a'
  | setEdge {a a' : Arena σ} {s t : StateId} {c : σ} {old : Option StateId}
      (h : a.setEdge s c t = .ok (old, a')) : Step a a'
  | setFinal {a a' : Arena σ} {s : StateId} {isFinal : Bool} (h : a.setFinal s isFinal = .ok a') :
      Step a a'
  | delete (a : Arena σ) (s : StateId) : Step a (a.delete s)

/-- Operations lead from an arena to another. -/
def Steps : Arena σ → Arena σ → Prop := Relation.ReflTransGen Step

variable {a a' a'' : Arena σ}

theorem Steps.refl (a : Arena σ) : Steps a a := Relation.ReflTransGen.refl

theorem Step.steps (h : Step a a') : Steps a a' := Relation.ReflTransGen.single h

theorem Steps.trans (h : Steps a a') (h' : Steps a' a'') : Steps a a'' :=
  Relation.ReflTransGen.trans h h'

/-- **What every operation keeps is kept by any number of them.** -/
theorem Steps.invariant {I : Arena σ → Prop} (hstep : ∀ {a a'}, Step a a' → I a → I a')
    (h : Steps a a') (ha : I a) : I a' := by
  induction h with
  | refl => exact ha
  | tail _ h ih => exact hstep h ih

end WordGraph.Arena
