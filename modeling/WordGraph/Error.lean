import WordGraph.Fault
import WordGraph.Symbol
import WordGraph.Text.CharLiteral

/-!
# Errors

The reasons for which an operation on an automaton is refused, and the text of each.
-/

namespace WordGraph

/-- Why bytes are not the dump of an automaton. -/
inductive FormatError where
  /-- The bytes end before what they announce. -/
  | truncated
  /-- The bytes do not start as a dump does. -/
  | badMagic
  /-- The version of the format is not known. -/
  | unsupportedVersion (version : Nat)
  /-- The symbols are of another width than those of the automaton. -/
  | symbolWidth (expected found : Nat)
  /-- A field of the header or a node has an impossible value. -/
  | badHeader (reason : String)
  /-- A stored code is the code of no symbol. -/
  | invalidSymbol (code : Nat)
  /-- An edge names a node that does not exist. -/
  | danglingIndex (index nodes : Nat)
  /-- A node has two edges with the same symbol. -/
  | duplicateSymbol (node : Nat)
  /-- The edges are not in order. -/
  | unsortedEdges (node : Nat)
  /-- The graph has a cycle. -/
  | cycle
  /-- A node cannot be reached. -/
  | unreachable (node : Nat)
  /-- The nodes are not in the order of a first visit. -/
  | nodeOrder
  /-- The stored number of words of a node is not the one that the graph gives. -/
  | countMismatch (node : Nat)
  /-- The graph accepts more words than can be counted. -/
  | countOverflow
  /-- A node accepts nothing, or the same words as another one. -/
  | notMinimal (node : Nat)
  /-- The stored last word does not spell a path of its own. -/
  | badFrontier
  /-- Bytes are left over. -/
  | trailingBytes (count : Nat)
  deriving DecidableEq, Repr

/-- The text of a format error. -/
def FormatError.message : FormatError → String
  | .truncated => "dump is truncated"
  | .badMagic => "not a DAWG dump"
  | .unsupportedVersion v => "unsupported dump version " ++ toString v
  | .symbolWidth expected found =>
    "dump has " ++ toString found ++ "-byte symbols, expected " ++ toString expected
  | .badHeader reason => "invalid dump header: " ++ reason
  | .invalidSymbol code => "invalid symbol code 0x" ++ Text.hex code
  | .danglingIndex index nodes =>
    "node index " ++ toString index ++ " out of range (" ++ toString nodes ++ " nodes)"
  | .duplicateSymbol node => "node " ++ toString node ++ " has duplicate edge labels"
  | .unsortedEdges node => "edges of node " ++ toString node ++ " are out of order"
  | .cycle => "graph contains a cycle"
  | .unreachable node => "node " ++ toString node ++ " is unreachable"
  | .nodeOrder => "nodes are not in canonical order"
  | .countMismatch node => "accept count of node " ++ toString node ++ " is inconsistent"
  | .countOverflow => "word count overflows"
  | .notMinimal node => "node " ++ toString node ++ " duplicates another node"
  | .badFrontier => "frontier does not match the graph"
  | .trailingBytes count => toString count ++ " trailing bytes after dump"

/-- Why an operation is refused. -/
inductive Error (σ : Type) where
  /-- A word comes before the last one. -/
  | outOfOrder (previous current : Word σ)
  /-- A closed automaton takes no words. -/
  | closed
  /-- The automaton is not the one that the cursor was made for, or it has changed. -/
  | staleCursor
  /-- Bytes are not the dump of an automaton. -/
  | format (e : FormatError)
  /-- The graph is not in shape. -/
  | fault (f : Fault)
  deriving DecidableEq, Repr

/-- The text of an error. -/
def Error.message {σ : Type} [Symbol σ] : Error σ → String
  | .outOfOrder previous current =>
    "OrderError - " ++ previous.text ++ " came before " ++ current.text
  | .closed => "automaton is closed, clear it before adding words"
  | .staleCursor => "underlying graph has changed, cursor is not valid anymore"
  | .format e => e.message
  | .fault f => f.message

instance {σ : Type} : MonadLift (Except Fault) (Except (Error σ)) := ⟨Except.mapError .fault⟩

instance {σ : Type} : MonadLift (Except FormatError) (Except (Error σ)) :=
  ⟨Except.mapError .format⟩

end WordGraph
