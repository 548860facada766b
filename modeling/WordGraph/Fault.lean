/-!
# Faults

What an operation answers when the graph it is given is not in the shape that it relies on, or when
a number outgrows its range. Faults are answers, so no operation needs a promise of its caller in
order to be defined.
-/

namespace WordGraph

/-- A graph that an operation cannot go on with. -/
inductive Fault where
  /-- A state identifier names a slot that holds no state. -/
  | deletedSlot
  /-- A new state would need more slots than identifiers can name. -/
  | arenaFull
  /-- An edge was to lead to a slot that holds no state. -/
  | deadTarget
  /-- A state was to be looked up while one of its children is not the registered one of its kind.
  -/
  | unregisteredChild
  /-- More words are accepted than a count can hold. -/
  | countOverflow
  /-- There are more edges than a dump can count. -/
  | tooManyEdges
  /-- The words asked for have no end. -/
  | endless
  deriving DecidableEq, Repr

/-- The text of a fault. -/
def Fault.message : Fault → String
  | .deletedSlot => "state id refers to a deleted slot"
  | .arenaFull => "arena has no slot left"
  | .deadTarget => "edge leads to a deleted slot"
  | .unregisteredChild => "child of a state to look up is not registered"
  | .countOverflow => "attempt to add with overflow"
  | .tooManyEdges => "too many edges for a dump"
  | .endless => "graph contains a cycle of words"

end WordGraph
