/-!
# The life of an automaton

An automaton is empty until it is given a word, active as long as it takes words, and closed from
the moment when its last word is done with.
-/

namespace WordGraph

/-- Where an automaton is in its life. -/
inductive Lifecycle where
  /-- No word was added so far. -/
  | empty
  /-- Words can be added; the path of the last one is not minimal. -/
  | active
  /-- Minimal; no word can be added. -/
  | closed
  deriving DecidableEq, Repr

/-- How messages show where an automaton is in its life. -/
def Lifecycle.text : Lifecycle → String
  | .empty => "Empty"
  | .active => "Active"
  | .closed => "Closed"

end WordGraph
