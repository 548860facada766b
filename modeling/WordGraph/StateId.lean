/-!
# State identifiers

A state is named by the slot that it occupies. The name is good as long as the state lives: a freed
slot is given to a later state.
-/

namespace WordGraph

/-- The name of a state: the index of its slot. -/
structure StateId where
  /-- The index of the slot. -/
  slot : Nat
  deriving DecidableEq, Hashable, Repr, Inhabited

/-- How messages show an identifier. -/
def StateId.text (s : StateId) : String := "StateId(" ++ toString s.slot ++ ")"

end WordGraph
