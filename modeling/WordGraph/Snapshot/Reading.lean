import WordGraph.Arena.Language
import WordGraph.Snapshot

/-!
# Reading a snapshot

A snapshot can be read without the graph that it was made of. Its edges lead from one serial to another,
and a word is read off if it leads from the first node to one at which words end.

* `Snapshot.Path`, `Snapshot.Reads` — words that lead somewhere, and words that are read off
* `Arena.Shows` — the node of a state
-/

namespace WordGraph

variable {σ : Type}

namespace Snapshot

/-- `g.Path m w n`: the word `w` leads from the node with serial `m` to that with serial `n`. -/
inductive Path (g : Snapshot σ) : Nat → Word σ → Nat → Prop
  | nil (n : Nat) : Path g n [] n
  | cons {e : Edge σ} {w : Word σ} {n : Nat} (he : e ∈ g.edges) (h : Path g e.target w n) :
      Path g e.source (e.symbol :: w) n

/-- A word is read off if it leads from the first node to one at which words end. -/
def Reads (g : Snapshot σ) (w : Word σ) : Prop :=
  ∃ first ∈ g.nodes.head?, ∃ node ∈ g.nodes, node.isFinal ∧ g.Path first.serial w node.serial

theorem path_nil_iff {g : Snapshot σ} {m n : Nat} : g.Path m [] n ↔ m = n := by
  constructor
  · rintro ⟨⟩
    rfl
  · rintro rfl
    exact .nil m

theorem path_cons_iff {g : Snapshot σ} {m n : Nat} {c : σ} {w : Word σ} :
    g.Path m (c :: w) n ↔ ∃ e ∈ g.edges, e.source = m ∧ e.symbol = c ∧ g.Path e.target w n := by
  constructor
  · rintro ⟨⟩
    exact ⟨_, ‹_›, rfl, rfl, ‹_›⟩
  · rintro ⟨e, he, rfl, rfl, h⟩
    exact .cons he h

end Snapshot

namespace Arena

variable [Symbol σ]

/-- A node shows a state if it has its serial and its end. -/
def Shows (a : Arena σ) (s : StateId) (node : Snapshot.Node) : Prop :=
  ∃ x, a.get? s = some x ∧ node.serial = x.serial ∧ node.isFinal = x.isFinal

/-- A state has one node at most. -/
theorem Shows.unique {a : Arena σ} {s : StateId} {node node' : Snapshot.Node} (h : a.Shows s node)
    (h' : a.Shows s node') : node = node' := by
  obtain ⟨x, hx, hserial, hfinal⟩ := h
  obtain ⟨y, hy, hserial', hfinal'⟩ := h'
  cases hx.symm.trans hy
  cases node
  cases node'
  rw [Snapshot.Node.mk.injEq]
  exact ⟨hserial.trans hserial'.symm, hfinal.trans hfinal'.symm⟩

end Arena

end WordGraph
