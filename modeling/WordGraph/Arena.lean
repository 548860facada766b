import WordGraph.EdgeTable
import WordGraph.Fault

/-!
# The arena of states

The arena owns every state of an automaton. A state lives in a slot, whose index is its identifier.
A deleted state leaves its slot free; the slot that was freed last is the first to be given to a new
state. Beside its slot a state has a serial, the number of states that were made before it, which no
later state shares.

The arena creates, links and deletes states. It knows nothing of minimal automata and may hold any
graph, with cycles, states out of reach and edges into free slots.
-/

namespace WordGraph

/-- A state: its serial, whether words end at it, and the edges that leave it. -/
structure State (σ : Type) [Symbol σ] where
  serial : Nat
  isFinal : Bool
  edges : EdgeTable σ
  deriving DecidableEq

/-- The states of an automaton by slot. -/
structure Arena (σ : Type) [Symbol σ] where
  /-- The slots; a free one holds nothing. -/
  slots : Array (Option (State σ))
  /-- The free slots, the one freed last in front. -/
  free : List StateId
  /-- The number of states. -/
  live : Nat
  /-- The serial of the next state. -/
  nextSerial : Nat

/-- The number of slots that identifiers can name: 2^32. -/
def slotLimit : Nat := 4294967296

namespace Arena

variable {σ : Type} [Symbol σ]

/-- The arena without slots. -/
def empty : Arena σ := ⟨#[], [], 0, 0⟩

instance : EmptyCollection (Arena σ) := ⟨empty⟩
instance : Inhabited (Arena σ) := ⟨empty⟩

/-- The number of slots, free or not. -/
def slotCount (a : Arena σ) : Nat := a.slots.size

/-- The state in a slot, if there is one. -/
def get? (a : Arena σ) (s : StateId) : Option (State σ) := (a.slots[s.slot]?).join

/-- Whether an identifier names a state. -/
def isLive (a : Arena σ) (s : StateId) : Bool := (a.get? s).isSome

/-- The state that an identifier names. -/
def state (a : Arena σ) (s : StateId) : Except Fault (State σ) :=
  match a.get? s with
  | some x => .ok x
  | none => .error .deletedSlot

/-- Writes the content of a slot. -/
def put (a : Arena σ) (s : StateId) (x : Option (State σ)) : Arena σ :=
  { a with slots := a.slots.setIfInBounds s.slot x }

/-- Makes a state without edges in an arena of at most `limit` slots, or of any number of slots if
there is no limit, and answers its identifier. -/
def createWithin (limit : Option Nat) (a : Arena σ) (isFinal : Bool) :
    Except Fault (StateId × Arena σ) :=
  let x : State σ := ⟨a.nextSerial, isFinal, ∅⟩
  match a.free with
  | s :: free =>
    .ok (s, { a with
      free := free, live := a.live + 1, nextSerial := a.nextSerial + 1 }.put s (some x))
  | [] =>
    if ∀ n ∈ limit, a.slots.size < n then
      .ok (⟨a.slots.size⟩, { a with
        slots := a.slots.push (some x), live := a.live + 1, nextSerial := a.nextSerial + 1 })
    else .error .arenaFull

/-- Makes a state without edges in an arena of as many slots as there are identifiers. -/
def create (a : Arena σ) (isFinal : Bool) : Except Fault (StateId × Arena σ) :=
  a.createWithin (some slotLimit) isFinal

/-- The state that a state's edge for a symbol leads to. -/
def target? (a : Arena σ) (s : StateId) (c : σ) : Except Fault (Option StateId) :=
  return (← a.state s).edges.find? c

/-- Points a state's edge for a symbol at a living target, and answers the target it had before. -/
def setEdge (a : Arena σ) (s : StateId) (c : σ) (t : StateId) :
    Except Fault (Option StateId × Arena σ) := do
  unless a.isLive t do throw .deadTarget
  let x ← a.state s
  return (x.edges.find? c, a.put s (some { x with edges := x.edges.set c t }))

/-- Says whether words end at a state. -/
def setFinal (a : Arena σ) (s : StateId) (isFinal : Bool) : Except Fault (Arena σ) := do
  let x ← a.state s
  return a.put s (some { x with isFinal })

/-- Frees the slot of a state. A slot that is free already stays as it is. -/
def delete (a : Arena σ) (s : StateId) : Arena σ :=
  if a.isLive s then { a with live := a.live - 1, free := s :: a.free }.put s none else a

/-! ## The view by slot -/

theorem state_eq_ok_iff {a : Arena σ} {s : StateId} {x : State σ} :
    a.state s = .ok x ↔ a.get? s = some x := by
  unfold state
  split <;> simp_all

theorem state_eq_error_iff {a : Arena σ} {s : StateId} {f : Fault} :
    a.state s = .error f ↔ a.get? s = none ∧ f = .deletedSlot := by
  unfold state
  split
  · next x h => simp [h]
  · next h => simp [h, eq_comm]

theorem isLive_iff {a : Arena σ} {s : StateId} : a.isLive s ↔ ∃ x, a.get? s = some x := by
  simp [isLive, Option.isSome_iff_exists]

@[simp] theorem get?_empty (s : StateId) : (∅ : Arena σ).get? s = none := by
  show (#[][s.slot]?).join = none
  simp

theorem slot_lt_of_get? {a : Arena σ} {s : StateId} {x : State σ} (h : a.get? s = some x) :
    s.slot < a.slotCount := by
  rw [get?, Option.join_eq_some_iff] at h
  exact (Array.getElem?_eq_some_iff.1 h).1

@[simp] theorem slotCount_put (a : Arena σ) (s : StateId) (x : Option (State σ)) :
    (a.put s x).slotCount = a.slotCount := by
  simp [put, slotCount]

theorem get?_put_of_ne {a : Arena σ} {s t : StateId} {x : Option (State σ)} (h : t ≠ s) :
    (a.put s x).get? t = a.get? t := by
  have hne : s.slot ≠ t.slot := fun e => h (by cases s; cases t; simp_all)
  simp [put, get?, hne]

theorem get?_put_self {a : Arena σ} {s : StateId} {x : Option (State σ)}
    (h : s.slot < a.slotCount) : (a.put s x).get? s = x := by
  have : s.slot < a.slots.size := h
  simp [put, get?, this]

/-- Writing a slot that exists changes that slot and no other. -/
theorem get?_put {a : Arena σ} {s t : StateId} {x : Option (State σ)} (h : s.slot < a.slotCount) :
    (a.put s x).get? t = if t = s then x else a.get? t := by
  split
  · next ht => rw [ht, get?_put_self h]
  · next ht => exact get?_put_of_ne ht

/-- Pointing an edge answers the old target and changes one entry of one table. -/
theorem setEdge_eq_ok_iff {a a' : Arena σ} {s t : StateId} {c : σ} {old : Option StateId} :
    a.setEdge s c t = .ok (old, a') ↔
      a.isLive t ∧ ∃ x, a.get? s = some x ∧ old = x.edges.find? c ∧
        a' = a.put s (some { x with edges := x.edges.set c t }) := by
  unfold setEdge
  cases ht : a.isLive t with
  | false => simp [bind, Except.bind, throw, throwThe, MonadExceptOf.throw]
  | true =>
    cases h : a.state s with
    | error f =>
      have hs := (state_eq_error_iff.1 h).1
      simp [hs, bind, Except.bind]
    | ok x =>
      have hs := state_eq_ok_iff.1 h
      simp [hs, bind, Except.bind, pure, Except.pure, eq_comm]

/-- Saying whether words end at a state changes nothing else of it. -/
theorem setFinal_eq_ok_iff {a a' : Arena σ} {s : StateId} {isFinal : Bool} :
    a.setFinal s isFinal = .ok a' ↔
      ∃ x, a.get? s = some x ∧ a' = a.put s (some { x with isFinal }) := by
  unfold setFinal
  cases h : a.state s with
  | error f =>
    have hs := (state_eq_error_iff.1 h).1
    simp [hs, bind, Except.bind]
  | ok x =>
    have hs := state_eq_ok_iff.1 h
    simp [hs, bind, Except.bind, pure, Except.pure, eq_comm]

/-- Deleting a state empties its slot and no other. -/
theorem get?_delete (a : Arena σ) (s t : StateId) :
    (a.delete s).get? t = if t = s then none else a.get? t := by
  unfold delete
  split
  · next h =>
    obtain ⟨x, hx⟩ := isLive_iff.1 h
    exact get?_put (slot_lt_of_get? hx)
  · next h =>
    have hs : a.get? s = none := by simpa [isLive] using h
    split
    · next ht => rw [ht, hs]
    · rfl

end Arena

end WordGraph
