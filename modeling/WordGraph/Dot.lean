import WordGraph.Lexicon.Query

/-!
# Drawing a lexicon

The snapshot of a lexicon as a directed graph in the DOT language. A node is named by its serial in
hexadecimal and drawn as a circle, a double one if words end at it; edges bear their symbols.
-/

namespace WordGraph.Dot

/-- A character inside a quoted label. -/
def escape (c : Char) : String :=
  match c with
  | '"' => "\\\""
  | '\\' => "\\\\"
  | c => c.toString

/-- The name of a node. -/
def nodeName (serial : Nat) : String := "N" ++ Text.hex serial

/-- The line for a node. -/
def nodeLine (n : Snapshot.Node) : String :=
  nodeName n.serial ++ " [shape=" ++ (if n.isFinal then "doublecircle" else "circle") ++
    ", label=\"\"]\n"

/-- The line for an edge. -/
def edgeLine (e : Snapshot.Edge Char) : String :=
  nodeName e.source ++ " -> " ++ nodeName e.target ++ " [label=\"" ++ escape e.symbol ++ "\"]\n"

/-- The text of a drawing with a given name. -/
def render (name : String) (s : Snapshot Char) : String :=
  "digraph " ++ name ++ " \x7b\n" ++ String.join (s.nodes.map nodeLine) ++
    String.join (s.edges.map edgeLine) ++ "\x7d\n"

/-- The line that tells how big the drawn lexicon is. -/
def statisticsLine (s : Statistics) : String :=
  toString s.words ++ " words, " ++ toString s.nodes ++ " states, " ++ toString s.edges ++
    " edges, longest word " ++ toString s.longest ++ "\n"

end WordGraph.Dot
