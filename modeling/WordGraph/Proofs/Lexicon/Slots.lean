import WordGraph.Proofs.Arena.History
import WordGraph.Proofs.Automaton.History
import WordGraph.Proofs.Lexicon.Building
import WordGraph.Proofs.Lexicon.Shape

/-!
# The slots and serials of a lexicon

The states of a lexicon are made by operations on an arena without slots, those of a loaded one as well:
its nodes are states that are made one after the other, and its edges are pointed then. So there are
never more slots than identifiers can name, and no two states have one serial.

* `Dump.steps_of_arena` — what makes the arena of a dump
* `Reachable.steps` — operations on an arena without slots lead to that of any lexicon
* `Reachable.slotCount_le` — a lexicon has no more slots than identifiers can name
-/

namespace WordGraph

open Arena

variable {σ : Type} [Symbol σ]

/-! ## Dumps -/

namespace Dump

variable {nodes : List Node} {k : Contents σ} {a : Arena σ}

/-- The nodes of a dump are made one after the other, as long as they can be named. -/
theorem steps_arenaOfNodes (h : nodes.length ≤ slotLimit) :
    Steps ∅ (arenaOfNodes nodes : Arena σ) := by
  induction nodes using List.reverseRecOn with
  | nil => exact .refl _
  | append_singleton nodes n ih =>
    rw [List.length_append, List.length_singleton] at h
    have hcreate : (arenaOfNodes nodes : Arena σ).create n.isFinal =
        .ok (⟨nodes.length⟩, arenaOfNodes (nodes ++ [n])) := by
      have hsize : ∀ m ∈ some slotLimit, (arenaOfNodes nodes : Arena σ).slots.size < m := by
        simpa [arenaOfNodes] using Nat.lt_of_succ_le h
      unfold create createWithin
      dsimp only [show (arenaOfNodes nodes : Arena σ).free = [] from rfl]
      rw [if_pos hsize]
      simp [arenaOfNodes, List.mapIdx_concat]
    exact (ih (Nat.le_of_succ_le h)).trans (Step.create hcreate).steps

/-- The edges of a dump are pointed one after the other. -/
theorem steps_of_foldlM {edges : List (Edge σ)} {a a' : Arena σ}
    (h : (edges.foldlM (fun a e => do return (← a.setEdge ⟨e.source⟩ e.symbol ⟨e.target⟩).2) a :
      Except Fault (Arena σ)) = .ok a') : Steps a a' := by
  induction edges generalizing a with
  | nil =>
    cases h
    exact .refl _
  | cons e edges ih =>
    rw [List.foldlM_cons, bind_eq_ok_iff] at h
    obtain ⟨a₁, hrun, h⟩ := h
    obtain ⟨⟨old, a₂⟩, hset, heq⟩ := bind_eq_ok_iff.1 hrun
    cases heq
    exact (Step.setEdge hset).steps.trans (ih h)

theorem steps_of_arena (hk : k.nodes.length ≤ slotLimit) (h : k.arena = .ok a) : Steps ∅ a :=
  (steps_arenaOfNodes hk).trans (steps_of_foldlM h)

end Dump

/-! ## Lexicons -/

namespace Lexicon

open Automaton

variable {l l' : Lexicon σ} {w : Word σ} {isNew : Bool}

/-- A loaded lexicon has the arena of the dump. -/
theorem steps_of_load [SymbolCode σ] {identity : Nat} {bs : Bytes}
    (h : (load identity bs).result = .ok l) : Steps ∅ l.arena := by
  obtain ⟨k, -, hwf, -, hl⟩ := exists_contents_of_load h
  obtain ⟨a, order, n, lengths, path, register, ha, -, -, -, -, -, -, -, -, rfl⟩ :=
    ofContents_eq_ok_iff.1 hl
  exact Dump.steps_of_arena (Nat.le_of_lt hwf.header.nodes) ha

theorem steps_of_insert (h : (l.insert w).result = .ok (isNew, l')) : Steps l.arena l'.arena := by
  obtain ⟨i, ms, hadd⟩ := exists_add_of_insert h
  exact steps_of_add hadd

/-- An operation on a lexicon goes on with its arena, or with a new one. -/
theorem Step.steps (h : Step l l') (hvalid : l.Valid) (hl : Steps ∅ l.arena) : Steps ∅ l'.arena := by
  cases h with
  | add hr => exact hl.trans (steps_of_insert (insert_of_add hr).2.2)
  | addUnchecked hr => exact hl.trans (steps_of_insert (insert_of_addUnchecked hr).2)
  | close hr =>
    by_cases hlife : l.lifecycle = .closed
    · rw [close_of_closed hlife] at hr
      cases hr
      exact hl
    · obtain ⟨g, ms, hclose, rfl⟩ := exists_close_of_close hlife hr
      exact hl.trans (steps_of_close hclose)
  | clear hr =>
    -- what is cleared starts with a new arena
    cases hr
    exact steps_initial
  | numbering hr =>
    obtain ⟨n, hrun, -⟩ := hvalid.numbering_spec
    rw [hrun] at hr
    cases hr
    exact hl
  | clone identity => exact hl

/-- **The states of a lexicon are made by operations on an arena without slots**, however it came
about. -/
theorem Reachable.steps (h : Reachable l) : Steps ∅ l.arena := by
  induction h with
  | new identity => exact steps_initial
  | load h => exact steps_of_load h
  | step h hs ih => exact hs.steps h.valid ih

/-- **A lexicon has no more slots than identifiers can name**, however it came about. -/
theorem Reachable.slotCount_le (h : Reachable l) : l.arena.slotCount ≤ slotLimit :=
  h.steps.slotCount_le

end Lexicon

end WordGraph
