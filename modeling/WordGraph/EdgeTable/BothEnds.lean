import WordGraph.EdgeTable.Compact
import WordGraph.EdgeTable.Ends

/-!
# Taking edges of a compact table from both ends

A span of a compact table hands out its edges by position. It has two positions, and a call at one end
moves one of them towards the other; where they meet, nothing is left. The number of edges to come is
the distance between them.

* `Span.nextBack` — the last edge to come
* `Span.sizeHint`, `Span.length?` — how many edges are to come
* `handOut` — what any calls at the two ends hand out, one call after the other
-/

namespace WordGraph.EdgeTable

variable {σ : Type}

/-- The ends at which edges are taken. -/
inductive End where
  | front
  | back
  deriving DecidableEq, Repr

/-- Hands out the edge to come at an end. -/
def Pending.take (p : Pending σ) : End → Option (σ × StateId) × Pending σ
  | .front => p.popFront
  | .back => p.popBack

namespace Compact.Span

/-- Hands out the last edge to come. -/
def nextBack (r : Span σ) : Option (σ × StateId) × Span σ :=
  if r.back ≤ r.front then (none, r)
  else (r.table.get? (r.back - 1), { r with back := r.back - 1 })

/-- Hands out the edge to come at an end. -/
def take (r : Span σ) : End → Option (σ × StateId) × Span σ
  | .front => r.next
  | .back => r.nextBack

/-- How many edges are to come: at least so many, and at most so many if there is a bound. -/
def sizeHint (r : Span σ) : Nat × Option Nat := (r.back - r.front, some (r.back - r.front))

/-- How many edges are to come, provided that the bounds are the same. -/
def length? (r : Span σ) : Option Nat :=
  if r.sizeHint.2 = some r.sizeHint.1 then some r.sizeHint.1 else none

end Compact.Span

/-! ## Calls at the two ends -/

section

variable {ι : Type} (take : ι → End → Option (σ × StateId) × ι)

/-- What calls at the ends are answered, one after the other, and what is left to take from. -/
def handOut (r : ι) : List End → List (End × Option (σ × StateId)) × ι
  | [] => ([], r)
  | e :: ends =>
    let (answer, r) := take r e
    let (answers, r) := handOut r ends
    ((e, answer) :: answers, r)

/-- The edges that the calls at one end have handed out, in the order of the calls. -/
def takenAt (e : End) (answers : List (End × Option (σ × StateId))) : List (σ × StateId) :=
  answers.filterMap fun a => if a.1 = e then a.2 else none

end

end WordGraph.EdgeTable
