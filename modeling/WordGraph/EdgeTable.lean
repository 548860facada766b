import WordGraph.StateId
import WordGraph.Symbol

/-!
# Tables of edges

The edges that leave a state, one for each symbol, in increasing order of their symbols. A table is
a finite map from symbols to states: `find?` reads it, `set` points one symbol's edge at a state.

The order is a field of the type, so each table lists its edges in order whatever was done to it.
-/

namespace WordGraph

/-- The edges of a state, sorted by symbol. -/
@[ext] structure EdgeTable (σ : Type) [Symbol σ] where
  /-- The edges, as pairs of a symbol and the state it leads to. -/
  edges : List (σ × StateId)
  sorted : edges.Pairwise fun e e' => e.1 < e'.1
  deriving DecidableEq

/-- How many edges a table holds, as far as small tables are told apart. -/
inductive EdgeTable.Shape where
  | none
  | one
  | two
  | many
  deriving DecidableEq, Repr

namespace EdgeTable

variable {σ : Type} [Symbol σ]

/-- The table without edges. -/
def empty : EdgeTable σ := ⟨[], .nil⟩

instance : EmptyCollection (EdgeTable σ) := ⟨empty⟩
instance : Inhabited (EdgeTable σ) := ⟨empty⟩

@[simp] theorem edges_empty : (∅ : EdgeTable σ).edges = [] := rfl

/-- The number of edges. -/
def size (t : EdgeTable σ) : Nat := t.edges.length

/-- Whether there are no edges. -/
def isEmpty (t : EdgeTable σ) : Bool := t.edges.isEmpty

/-- The states that the edges lead to, in the order of the symbols. -/
def targets (t : EdgeTable σ) : List StateId := t.edges.map Prod.snd

/-- The shape that the number of edges gives. -/
def shape (t : EdgeTable σ) : Shape :=
  match t.edges with
  | [] => .none
  | [_] => .one
  | [_, _] => .two
  | _ => .many

/-- The edge at a position, the first at 0. -/
def get? (t : EdgeTable σ) (i : Nat) : Option (σ × StateId) := t.edges[i]?

/-- The state that a symbol's edge leads to. -/
def find? (t : EdgeTable σ) (c : σ) : Option StateId :=
  (t.edges.find? fun e => e.1 = c).map Prod.snd

/-- The edges of a list below a symbol, an edge for the symbol, and the edges above it. -/
def place (c : σ) (s : StateId) (edges : List (σ × StateId)) : List (σ × StateId) :=
  edges.filter (fun e => e.1 < c) ++ (c, s) :: edges.filter (fun e => c < e.1)

theorem sorted_place (c : σ) (s : StateId) {edges : List (σ × StateId)}
    (h : edges.Pairwise fun e e' => e.1 < e'.1) :
    (place c s edges).Pairwise fun e e' => e.1 < e'.1 := by
  refine List.pairwise_append.2 ⟨h.filter _, List.pairwise_cons.2 ⟨?_, h.filter _⟩, ?_⟩
  · intro e he
    simpa using (List.mem_filter.1 he).2
  · intro e he e' he'
    have hlt : e.1 < c := by simpa using (List.mem_filter.1 he).2
    rcases List.mem_cons.1 he' with rfl | he'
    · exact hlt
    · exact Symbol.lt_trans hlt (by simpa using (List.mem_filter.1 he').2)

/-- Points the edge of a symbol at a state, in place of the edge it had. -/
def set (t : EdgeTable σ) (c : σ) (s : StateId) : EdgeTable σ :=
  ⟨place c s t.edges, sorted_place c s t.sorted⟩

/-! ## A table is a finite map -/

/-- Two edges of a table with the same symbol are the same edge. -/
theorem eq_of_mem {t : EdgeTable σ} {c : σ} {s s' : StateId} (h : (c, s) ∈ t.edges)
    (h' : (c, s') ∈ t.edges) : s = s' := by
  obtain ⟨edges, sorted⟩ := t
  simp only at h h'
  induction sorted with
  | nil => cases h
  | @cons e es hlt _ ih =>
    rcases List.mem_cons.1 h with he | h <;> rcases List.mem_cons.1 h' with he' | h'
    · exact (Prod.ext_iff.1 (he.trans he'.symm)).2
    · exact absurd (hlt _ h') (by rw [← he]; exact Symbol.lt_irrefl c)
    · exact absurd (hlt _ h) (by rw [← he']; exact Symbol.lt_irrefl c)
    · exact ih h h'

theorem find?_eq_some_iff {t : EdgeTable σ} {c : σ} {s : StateId} :
    t.find? c = some s ↔ (c, s) ∈ t.edges := by
  constructor
  · intro h
    obtain ⟨⟨d, u⟩, hf, rfl⟩ := Option.map_eq_some_iff.1 h
    have hc : d = c := by simpa using List.find?_some hf
    exact hc ▸ List.mem_of_find?_eq_some hf
  · intro h
    cases hf : t.edges.find? fun e => e.1 = c with
    | none => exact absurd (List.find?_eq_none.1 hf _ h) (by simp)
    | some e =>
      obtain ⟨d, u⟩ := e
      have hc : d = c := by simpa using List.find?_some hf
      have hu : u = s := eq_of_mem (hc ▸ List.mem_of_find?_eq_some hf) h
      rw [find?, hf, Option.map_some, hu]

theorem mem_edges_set {t : EdgeTable σ} {c d : σ} {s u : StateId} :
    (d, u) ∈ (t.set c s).edges ↔ (d = c ∧ u = s) ∨ (d ≠ c ∧ (d, u) ∈ t.edges) := by
  simp only [set, place, List.mem_append, List.mem_cons, List.mem_filter, decide_eq_true_eq,
    Prod.mk.injEq]
  constructor
  -- an edge below the symbol, the edge for it, or an edge above it
  · rintro (⟨h, hlt⟩ | h | ⟨h, hlt⟩)
    · exact .inr ⟨Symbol.ne_of_lt hlt, h⟩
    · exact .inl h
    · exact .inr ⟨(Symbol.ne_of_lt hlt).symm, h⟩
  · rintro (h | ⟨hne, h⟩)
    · exact .inr (.inl h)
    · rcases Symbol.lt_trichotomy d c with hlt | rfl | hlt
      · exact .inl ⟨h, hlt⟩
      · exact absurd rfl hne
      · exact .inr (.inr ⟨h, hlt⟩)

@[simp] theorem find?_empty (c : σ) : (∅ : EdgeTable σ).find? c = none := rfl

@[simp] theorem find?_set_self (t : EdgeTable σ) (c : σ) (s : StateId) :
    (t.set c s).find? c = some s :=
  find?_eq_some_iff.2 (mem_edges_set.2 (.inl ⟨rfl, rfl⟩))

theorem find?_set_of_ne {t : EdgeTable σ} {c d : σ} {s : StateId} (h : d ≠ c) :
    (t.set c s).find? d = t.find? d := by
  ext u
  simp [find?_eq_some_iff, mem_edges_set, h]

end EdgeTable

end WordGraph
