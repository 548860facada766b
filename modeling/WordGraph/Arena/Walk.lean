import WordGraph.Arena

/-!
# Following a word

A word is followed from a state along the edges for its symbols, as far as there are any.
-/

namespace WordGraph.Arena

variable {σ : Type} [Symbol σ]

/-- Follows a word from a state, `n` symbols having been followed before. -/
def walkFrom (a : Arena σ) (n : Nat) (s : StateId) : Word σ → Except Fault (Nat × StateId)
  | [] => .ok (n, s)
  | c :: w => do
    match ← a.target? s c with
    | some t => a.walkFrom (n + 1) t w
    | none => return (n, s)

/-- The number of leading symbols of a word that can be followed from a state, and the state that
they lead to. -/
def walk (a : Arena σ) (s : StateId) (w : Word σ) : Except Fault (Nat × StateId) := a.walkFrom 0 s w

end WordGraph.Arena
