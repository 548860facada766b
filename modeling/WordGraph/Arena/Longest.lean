import WordGraph.Arena.Postorder

/-!
# The longest words from each state

In a list of states where each comes after its children, the length of the longest word accepted
from a state is known as soon as the state is reached: it is one more than the greatest length known
for a child, or nothing if no word is accepted.
-/

namespace WordGraph.Arena

variable {σ : Type} [Symbol σ]

/-- The greater of a length and one more than another; a missing length counts for nothing. -/
def longerBy : Option Nat → Option Nat → Option Nat
  | best, none => best
  | none, some n => some (n + 1)
  | some m, some n => some (max m (n + 1))

/-- The length of the longest word accepted from a state, by the lengths for its children. -/
def longestFrom (lengths : Array (Option Nat)) (x : State σ) : Option Nat :=
  x.edges.targets.foldl (fun best t => longerBy best (lengths[t.slot]?.join))
    (if x.isFinal then some 0 else none)

/-- The length of the longest word accepted from each listed state, by slot; nothing for a state
from which no word is accepted and for a slot that is not listed. -/
def longestPaths (a : Arena σ) (order : List StateId) : Except Fault (Array (Option Nat)) :=
  order.foldlM
    (fun lengths s => return lengths.setIfInBounds s.slot (longestFrom lengths (← a.state s)))
    (Array.replicate a.slotCount none)

end WordGraph.Arena
