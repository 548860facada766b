/-!
# Commands

What a command leaves behind when it has run.
-/

namespace WordGraph

/-- The outcome of a command: its exit code and what it wrote. -/
structure Command.Outcome where
  code : Nat
  stdout : String
  stderr : String
  deriving DecidableEq, Repr

/-- The outcome of a command that is not refused. -/
def Command.Outcome.success (stdout : String) (stderr : String) : Command.Outcome :=
  ⟨0, stdout, stderr⟩

/-- The outcome of a command that is refused for a reason. -/
def Command.Outcome.failure (reason : String) : Command.Outcome :=
  ⟨1, "", "Error: " ++ reason ++ "\n"⟩

end WordGraph
