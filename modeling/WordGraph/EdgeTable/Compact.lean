import WordGraph.EdgeTable

/-!
# Tables that hold few edges in place

Most states have no edge, one or two. A compact table holds up to two edges in place and a list of them
only from three on, so it has four shapes and every operation is written for each: a second edge goes
to the side of the first that its symbol asks for, three edges are sorted, and among more the place of
a new one is searched for. A list of edges is looked through two at a time.

* `Compact.set` — points the edge of a symbol at a state, and answers where it led before
* `Compact.find?` — the state that a symbol's edge leads to
* `Compact.iter`, `Span.next` — the edges, handed out one after the other by position

## Termination

A span hands out an edge only while its ends are apart, and moves one of them.
-/

namespace WordGraph.EdgeTable

/-- A table of edges with up to two of them in place. -/
inductive Compact (σ : Type) where
  | empty
  | one (c : σ) (s : StateId)
  | two (c₁ : σ) (s₁ : StateId) (c₂ : σ) (s₂ : StateId)
  | many (edges : List (σ × StateId))

namespace Compact

section

variable {σ : Type}

/-- The shape that a table has. -/
def shape : Compact σ → Shape
  | empty => .none
  | one .. => .one
  | two .. => .two
  | many _ => .many

/-- The number of edges. -/
def size : Compact σ → Nat
  | empty => 0
  | one .. => 1
  | two .. => 2
  | many edges => edges.length

/-- Whether there are no edges. -/
def isEmpty : Compact σ → Bool
  | empty => true
  | _ => false

/-- The edge at a position, the first at 0. -/
def get? : Compact σ → Nat → Option (σ × StateId)
  | empty, _ => none
  | one c s, 0 => some (c, s)
  | one .., _ => none
  | two c s _ _, 0 => some (c, s)
  | two _ _ c s, 1 => some (c, s)
  | two .., _ => none
  | many edges, i => edges[i]?

/-- The edges of a table from one position up to another. -/
structure Span (σ : Type) where
  table : Compact σ
  /-- The position of the next edge from the front. -/
  front : Nat
  /-- The position behind the next edge from the back. -/
  back : Nat

/-- All edges of a table. -/
def iter (p : Compact σ) : Span σ := ⟨p, 0, p.size⟩

/-- Hands out the first edge to come. -/
def Span.next (r : Span σ) : Option (σ × StateId) × Span σ :=
  if r.back ≤ r.front then (none, r)
  else (r.table.get? r.front, { r with front := r.front + 1 })

/-- What is handed out, call after call, up to the first call that hands out nothing. -/
def Span.toList (r : Span σ) : List (σ × StateId) :=
  match _h : r.next with
  | (some e, r) => e :: r.toList
  | (none, _) => []
termination_by r.back - r.front
decreasing_by
  unfold Span.next at _h
  split at _h
  · cases (Prod.mk.inj _h).1
  · obtain rfl := (Prod.mk.inj _h).2
    dsimp only
    omega

theorem Span.toList_cons {r r' : Span σ} {e : σ × StateId} (h : r.next = (some e, r')) :
    r.toList = e :: r'.toList := by
  rw [toList]
  split
  · next h' =>
    rw [h] at h'
    cases h'
    rfl
  · next h' =>
    rw [h] at h'
    cases h'

theorem Span.toList_nil {r r' : Span σ} (h : r.next = (none, r')) : r.toList = [] := by
  rw [toList]
  split
  · next h' =>
    rw [h] at h'
    cases h'
  · rfl

end

variable {σ : Type} [Symbol σ]

/-- Looks for the edge of a symbol in a list, two edges at a time; one may be left over at the end. -/
def scan (c : σ) : List (σ × StateId) → Option StateId
  | e₁ :: e₂ :: edges =>
    if e₁.1 = c then some e₁.2
    else if e₂.1 = c then some e₂.2
    else scan c edges
  | [e] => if e.1 = c then some e.2 else none
  | [] => none

/-- The state that a symbol's edge leads to. -/
def find? : Compact σ → σ → Option StateId
  | empty, _ => none
  | one c₁ s₁, c => if c₁ = c then some s₁ else none
  | two c₁ s₁ c₂ s₂, c => if c = c₁ then some s₁ else if c = c₂ then some s₂ else none
  | many edges, c => scan c edges

/-- Points the edge of a symbol at a state. The answer is the state that the edge led to before, if it
was there. -/
def set (p : Compact σ) (c : σ) (s : StateId) : Option StateId × Compact σ :=
  match p with
  | empty => (none, one c s)
  | one c₁ s₁ =>
    if c₁ = c then (some s₁, one c₁ s)
    else (none, if c < c₁ then two c s c₁ s₁ else two c₁ s₁ c s)
  | two c₁ s₁ c₂ s₂ =>
    if c₁ = c then (some s₁, two c₁ s c₂ s₂)
    else if c₂ = c then (some s₂, two c₁ s₁ c₂ s)
    else (none, many ([(c₁, s₁), (c₂, s₂), (c, s)].mergeSort fun e e' => ¬e'.1 < e.1))
  | many edges =>
    -- the edges below the symbol come first, so this is where an edge for it stands or belongs
    let i := edges.findIdx fun e => ¬e.1 < c
    match edges[i]?.filter fun e => e.1 = c with
    | some (c₁, s₁) => (some s₁, many (edges.set i (c₁, s)))
    | none => (none, many (edges.insertIdx i (c, s)))

/-- The table that calls of `set` make of an empty one. -/
def ofCalls (calls : List (σ × StateId)) : Compact σ :=
  calls.foldl (fun p e => (p.set e.1 e.2).2) empty

end Compact

end WordGraph.EdgeTable
