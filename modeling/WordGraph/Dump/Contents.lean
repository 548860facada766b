import WordGraph.Dump.Header

/-!
# The contents of a dump

What a dump says of an automaton: its nodes, each with whether words end at it and the number of
words accepted from it; its edges; the last word, if words can still be added; and a few numbers on
the whole. After the header follow the symbols of the last word, then the nodes, then the edges.

* `Contents.bytes` writes contents, `Contents.writeTo` to where there may be too little room for them.
* `Contents.ofBytes` reads them. It insists on the exact length, on flags and symbols that mean
  something, on edges between nodes that exist, and on their order: increasing by source and then by
  symbol. It does not look at the graph that the edges form.
-/

namespace WordGraph.Dump

/-- A node in a dump. -/
structure Node where
  isFinal : Bool
  /-- The number of words accepted from the node. -/
  count : Nat
  deriving DecidableEq, Repr

/-- An edge in a dump, its ends given by the positions of nodes. -/
structure Edge (σ : Type) where
  source : Nat
  symbol : σ
  target : Nat
  deriving DecidableEq, Repr

/-- What a dump says. -/
structure Contents (σ : Type) where
  lifecycle : Lifecycle
  /-- The number of words. -/
  words : Nat
  /-- The length of the longest word. -/
  longest : Nat
  /-- The last word of an active automaton. -/
  frontier : Word σ
  nodes : List Node
  edges : List (Edge σ)
  deriving DecidableEq, Repr

variable {σ : Type} [Symbol σ] [SymbolCode σ]

/-! ## Writing -/

/-- The bytes of a symbol. -/
def symbolBytes (c : σ) : Bytes :=
  encode (SymbolCode.width σ).bytes (SymbolCode.toCode c)

theorem range_bytes (w : Width) : range w.bytes = w.range := by cases w <;> rfl

/-- The bytes of a node. -/
def Node.bytes (n : Node) : Bytes := encode 1 n.isFinal.toNat ++ encode 8 n.count

/-- The bytes of an edge. -/
def Edge.bytes (e : Edge σ) : Bytes :=
  encode 4 e.source ++ symbolBytes e.symbol ++ encode 4 e.target

namespace Contents

/-- The header of the dump. -/
def header (c : Contents σ) : Header :=
  ⟨c.lifecycle, c.words, c.longest, c.nodes.length, c.edges.length, c.frontier.length⟩

/-- The bytes of the dump. -/
def bytes (c : Contents σ) : Bytes :=
  c.header.bytes (SymbolCode.width σ) ++ c.frontier.flatMap symbolBytes ++
    c.nodes.flatMap Node.bytes ++ c.edges.flatMap Edge.bytes

end Contents

/-- Why the rest of a dump is not written. -/
inductive Stop where
  /-- There is no room for more bytes. -/
  | noRoom
  /-- There are more edges than the header can tell. -/
  | tooManyEdges
  deriving DecidableEq, Repr

/-- The text of a reason, where `full` is what is said of the lack of room. -/
def Stop.message (full : String) : Stop → String
  | .noRoom => full
  | .tooManyEdges => "out of range integral type conversion attempted"

/-- Sends bytes to where there is room for so many, or for any number, and then stops for the reason
given, if there is one. It answers the bytes that were written and why no more were. -/
def send (room : Option Nat) (bs : Bytes) (stop? : Option Stop) : Bytes × Option Stop :=
  match room with
  | none => (bs, stop?)
  | some n => if n < bs.length then (bs.take n, some .noRoom) else (bs, stop?)

/-- Writes the dump to where there is room for so many bytes, or for any number. The number of edges is
looked at when its turn comes, so by then the front of the header is written. -/
def Contents.writeTo (c : Contents σ) (room : Option Nat) : Bytes × Option Stop :=
  if range 4 ≤ c.edges.length then
    send room (c.header.front (SymbolCode.width σ)) (some .tooManyEdges)
  else send room c.bytes none

/-! ## Reading -/

/-- Reads a symbol. -/
def readSymbol : Reader σ := do
  let code ← number (SymbolCode.width σ).bytes
  match SymbolCode.ofCode? code with
  | some c => return c
  | none => throw (.invalidSymbol code)

/-- Reads a node. -/
def readNode : Reader Node := do
  let flags ← number 1
  unless flags ≤ 1 do throw (.badHeader "unknown node flags")
  return ⟨flags = 1, ← number 8⟩

/-- Compares an edge with the one before it. -/
def checkOrder (previous? : Option (Edge σ)) (e : Edge σ) : Except FormatError Unit :=
  match previous? with
  | none => .ok ()
  | some p =>
    if e.source < p.source ∨ (e.source = p.source ∧ e.symbol < p.symbol) then
      .error (.unsortedEdges e.source)
    else if e.source = p.source ∧ e.symbol = p.symbol then .error (.duplicateSymbol e.source)
    else .ok ()

/-- Reads an edge between two of `nodes` nodes, which has to come after the one before it. -/
def readEdge (nodes : Nat) (previous? : Option (Edge σ)) : Reader (Edge σ) := do
  let e : Edge σ := ⟨← number 4, ← readSymbol, ← number 4⟩
  unless e.source < nodes do throw (.danglingIndex e.source nodes)
  unless e.target < nodes do throw (.danglingIndex e.target nodes)
  checkOrder previous? e
  return e

/-- Reads so many edges, behind the reversed list `done`. -/
def readEdgesFrom (nodes : Nat) (done : List (Edge σ)) : Nat → Reader (List (Edge σ))
  | 0 => return done.reverse
  | n + 1 => do readEdgesFrom nodes ((← readEdge nodes done.head?) :: done) n

/-- Reads what follows a header. -/
def Contents.readBody (h : Header) : Reader (Contents σ) := do
  let frontier ← many h.frontier readSymbol
  let nodes ← many h.nodes readNode
  let edges ← readEdgesFrom h.nodes [] h.edges
  return ⟨h.lifecycle, h.words, h.longest, frontier, nodes, edges⟩

/-- Reads the bytes of a dump. -/
def Contents.ofBytes (bs : Bytes) : Except FormatError (Contents σ) := do
  let (h, rest) ← Header.read (SymbolCode.width σ) bs
  let expected := h.dumpLength (SymbolCode.width σ)
  if bs.length < expected then throw .truncated
  if expected < bs.length then throw (.trailingBytes (bs.length - expected))
  if h.nodes = 0 then throw (.badHeader "no start state")
  if h.lifecycle ≠ .active ∧ h.frontier ≠ 0 then throw .badFrontier
  let (c, _) ← Contents.readBody h rest
  return c

end WordGraph.Dump
