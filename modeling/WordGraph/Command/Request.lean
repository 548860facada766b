import WordGraph.Command.Draw

/-!
# What the command line asks for

The arguments are `tour`, or `draw` with its options and at most one file, in any order: `--name
NAME` or `--name=NAME` names the drawing, `--stats` asks for its size. Without a file, the word list
is read from standard input.
-/

namespace WordGraph.Command

/-- What is asked for. -/
inductive Request where
  /-- To draw the word list in a file, or the one on standard input. -/
  | draw (options : Draw.Options) (file? : Option String)
  /-- To show a lexicon at work. -/
  | tour
  deriving DecidableEq, Repr

namespace Request

/-- The name that an argument gives, if it is of the form `--name=NAME`. -/
def nameOf? (argument : String) : Option String :=
  let option := "--name=".toList
  let cs := argument.toList
  if option.isPrefixOf cs then some (String.ofList (cs.drop option.length)) else none

/-- What the arguments after `draw` ask for, beside what was asked for before them. -/
def ofDrawArguments? (options : Draw.Options) (file? : Option String) : List String → Option Request
  | [] => some (.draw options file?)
  | "--stats" :: rest => ofDrawArguments? { options with statistics := true } file? rest
  | ["--name"] => none
  | "--name" :: name :: rest => ofDrawArguments? { options with name } file? rest
  | argument :: rest =>
    match nameOf? argument, file? with
    | some name, _ => ofDrawArguments? { options with name } file? rest
    | none, none => ofDrawArguments? options (some argument) rest
    | none, some _ => none

/-- What the arguments ask for, if it is anything. -/
def ofArguments? : List String → Option Request
  | ["tour"] => some .tour
  | "draw" :: rest => ofDrawArguments? .standard none rest
  | _ => none

end Request

end WordGraph.Command
