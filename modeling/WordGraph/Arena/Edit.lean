import WordGraph.Arena

/-!
# Editing an arena

An arena is edited by one call after the other: states are made, linked, ended and deleted, and all of
it is cleared. It knows which slots are free, but not which serials it has given out nor when a slot
was freed. A ledger has this beside the arena, from the last clearing on.

A state may be told to have an edge into a free slot. Whether that is noticed depends on whether the
target is looked at: `setEdge` does, `pointEdge` does not. Edits are made with or without this look.

* `Edit.apply` — one edit
* `Ledger.ofEdits` — any number of edits, from an arena without slots on; a fault ends them
-/

namespace WordGraph.Arena

variable {σ : Type} [Symbol σ] {a a' : Arena σ} {s t : StateId} {c : σ}

/-- Takes all states and slots away. Serials start again. -/
def clear (a : Arena σ) : Arena σ :=
  { a with slots := #[], free := [], live := 0, nextSerial := 0 }

/-- Points a state's edge for a symbol at a target, be it free or not, and answers the target it had
before. -/
def pointEdge (a : Arena σ) (s : StateId) (c : σ) (t : StateId) :
    Except Fault (Option StateId × Arena σ) := do
  let x ← a.state s
  return (x.edges.find? c, a.put s (some { x with edges := x.edges.set c t }))

/-- With a living target both ways to point an edge are the same. -/
theorem setEdge_eq_pointEdge (a : Arena σ) (s : StateId) (c : σ) (t : StateId) :
    a.setEdge s c t = if a.isLive t then a.pointEdge s c t else .error .deadTarget := by
  unfold setEdge pointEdge
  cases a.isLive t <;> rfl

theorem pointEdge_eq_ok_iff {old : Option StateId} :
    a.pointEdge s c t = .ok (old, a') ↔
      ∃ x, a.get? s = some x ∧ old = x.edges.find? c ∧
        a' = a.put s (some { x with edges := x.edges.set c t }) := by
  unfold pointEdge
  cases h : a.state s with
  | error f =>
    have hs := (state_eq_error_iff.1 h).1
    simp [hs, bind, Except.bind]
  | ok x =>
    have hs := state_eq_ok_iff.1 h
    simp [hs, bind, Except.bind, pure, Except.pure, eq_comm]

/-- Points an edge, with or without a look at the target. -/
def linkEdge (looking : Bool) (a : Arena σ) (s : StateId) (c : σ) (t : StateId) :
    Except Fault (Option StateId × Arena σ) :=
  if looking then a.setEdge s c t else a.pointEdge s c t

/-- Whether the target is looked at makes no difference to what is changed. -/
theorem exists_of_linkEdge {looking : Bool} {old : Option StateId}
    (h : a.linkEdge looking s c t = .ok (old, a')) :
    ∃ x, a.get? s = some x ∧ a' = a.put s (some { x with edges := x.edges.set c t }) := by
  unfold linkEdge at h
  split at h
  · obtain ⟨-, x, hx, -, rfl⟩ := setEdge_eq_ok_iff.1 h
    exact ⟨x, hx, rfl⟩
  · obtain ⟨x, hx, -, rfl⟩ := pointEdge_eq_ok_iff.1 h
    exact ⟨x, hx, rfl⟩

/-- An edit of an arena. -/
inductive Edit (σ : Type) where
  | create (isFinal : Bool)
  | delete (s : StateId)
  | setEdge (s : StateId) (c : σ) (t : StateId)
  | setFinal (s : StateId) (isFinal : Bool)
  | clear

/-- An edit names the state that it is about. Clearing is about all states. -/
def Edit.Names : Edit σ → StateId → Prop
  | create _, _ => False
  | delete s, t => t = s
  | setEdge s _ _, t => t = s
  | setFinal s _, t => t = s
  | clear, _ => True

/-- An arena, with what is remembered of the edits since it was cleared. -/
structure Ledger (σ : Type) [Symbol σ] where
  arena : Arena σ
  /-- The serials of the states that were made, the last one first. -/
  made : List Nat
  /-- The slots that were freed, each time anew, the last one first. -/
  freed : List StateId

/-- The ledger of an arena without slots. -/
instance : EmptyCollection (Ledger σ) := ⟨⟨∅, [], []⟩⟩

/-- Makes an edit, with or without a look at the target of an edge. -/
def Edit.apply (looking : Bool) (l : Ledger σ) : Edit σ → Except Fault (Ledger σ)
  | create isFinal => do
    let (s, arena) ← l.arena.create isFinal
    let x ← arena.state s
    return { l with arena, made := x.serial :: l.made }
  | delete s =>
    return { l with
      arena := l.arena.delete s, freed := if l.arena.isLive s then s :: l.freed else l.freed }
  | setEdge s c t => do
    let (_, arena) ← l.arena.linkEdge looking s c t
    return { l with arena }
  | setFinal s isFinal => return { l with arena := ← l.arena.setFinal s isFinal }
  | clear => return ⟨l.arena.clear, [], []⟩

/-- Makes edits one after the other, starting without slots. -/
def Ledger.ofEdits (looking : Bool) (edits : List (Edit σ)) : Except Fault (Ledger σ) :=
  edits.foldlM (Edit.apply looking) ∅

end WordGraph.Arena
