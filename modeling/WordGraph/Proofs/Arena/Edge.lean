import Mathlib.Data.Finset.Card
import Mathlib.Data.Nat.Find
import WordGraph.Arena.Language
import WordGraph.Proofs.Arena.Slots

/-!
# Edges, ranks and languages

`Arena.Edge` is one edge of the graph; paths and accepted words go along edges. A rank of the states
that falls along every edge shows that the graph has no cycle, and bounds the accepted words.

* `Ranked.acyclic` — only the empty word leads from a state back to it
* `Dag` — the part that can be reached from a state has no dangling edge and no cycle
* `Dag.exists_rank`, `exists_ranked` — then its states have ranks
* `accepts_congr` — states from which only unchanged states are met accept what they accepted
* `accepts_of_edges_eq` — states with the same edges and end accept the same words
-/

namespace WordGraph.Arena

variable {σ : Type} [Symbol σ] {a a' : Arena σ} {s t u : StateId} {c d : σ} {w v : Word σ}
  {x y : State σ}

/-- An edge of the graph. -/
def Edge (a : Arena σ) (s : StateId) (c : σ) (t : StateId) : Prop :=
  ∃ x, a.get? s = some x ∧ x.edges.find? c = some t

theorem edge_iff_mem (hx : a.get? s = some x) : a.Edge s c t ↔ (c, t) ∈ x.edges.edges := by
  rw [← EdgeTable.find?_eq_some_iff]
  constructor
  · rintro ⟨y, hy, h⟩
    rw [hx] at hy
    cases hy
    exact h
  · exact fun h => ⟨x, hx, h⟩

theorem Edge.unique (h : a.Edge s c t) (h' : a.Edge s c u) : t = u := by
  obtain ⟨x, hx, ht⟩ := h
  obtain ⟨y, hy, hu⟩ := h'
  rw [hx] at hy
  cases hy
  rw [ht] at hu
  exact Option.some.inj hu

theorem Edge.isLive (h : a.Edge s c t) : a.isLive s := by
  obtain ⟨x, hx, -⟩ := h
  exact isLive_of_get? hx

theorem Edge.congr (hs : a'.get? s = a.get? s) : a'.Edge s c t ↔ a.Edge s c t := by
  rw [Edge, hs, Edge]

theorem path_cons_iff_edge : a.Path s (c :: w) u ↔ ∃ t, a.Edge s c t ∧ a.Path t w u := by
  rw [path_cons_iff]
  constructor
  · rintro ⟨x, t, hx, hc, h⟩
    exact ⟨t, ⟨x, hx, hc⟩, h⟩
  · rintro ⟨t, ⟨x, hx, hc⟩, h⟩
    exact ⟨x, t, hx, hc, h⟩

/-- Words lead where they led if every edge is still there. -/
theorem Path.mono (hedge : ∀ {s c t}, a.Edge s c t → a'.Edge s c t) (h : a.Path s w t) :
    a'.Path s w t := by
  induction w generalizing s with
  | nil => exact path_nil_iff.2 (path_nil_iff.1 h)
  | cons c w ih =>
    obtain ⟨u, he, hp⟩ := path_cons_iff_edge.1 h
    exact path_cons_iff_edge.2 ⟨u, hedge he, ih hp⟩

theorem Edge.path (h : a.Edge s c t) : a.Path s [c] t :=
  path_cons_iff_edge.2 ⟨t, h, .nil t⟩

theorem Edge.reaches (h : a.Edge s c t) : a.Reaches s t := ⟨[c], h.path⟩

theorem accepts_cons_iff : a.Accepts s (c :: w) ↔ ∃ t, a.Edge s c t ∧ a.Accepts t w := by
  constructor
  · rintro ⟨u, x, hp, hx, hf⟩
    obtain ⟨t, he, hp⟩ := path_cons_iff_edge.1 hp
    exact ⟨t, he, u, x, hp, hx, hf⟩
  · rintro ⟨t, he, u, x, hp, hx, hf⟩
    exact ⟨u, x, path_cons_iff_edge.2 ⟨t, he, hp⟩, hx, hf⟩

theorem Edge.accepts_cons_iff (h : a.Edge s c t) : a.Accepts s (c :: w) ↔ a.Accepts t w := by
  rw [Arena.accepts_cons_iff]
  constructor
  · rintro ⟨u, hu, hw⟩
    rwa [h.unique hu]
  · exact fun hw => ⟨t, h, hw⟩

theorem accepts_nil_iff_of_get? (hx : a.get? s = some x) : a.Accepts s [] ↔ x.isFinal := by
  rw [accepts_nil_iff]
  constructor
  · rintro ⟨y, hy, hf⟩
    rw [hx] at hy
    cases hy
    exact hf
  · exact fun hf => ⟨x, hx, hf⟩

theorem isLive_of_accepts (h : a.Accepts s w) : a.isLive s := by
  cases w with
  | nil =>
    obtain ⟨x, hx, -⟩ := accepts_nil_iff.1 h
    exact isLive_of_get? hx
  | cons c w =>
    obtain ⟨t, he, -⟩ := accepts_cons_iff.1 h
    exact he.isLive

/-- Only states are reached from a state, if every edge leads to one. -/
theorem isLive_of_path (hl : ∀ {s c t}, a.Edge s c t → a.isLive t) (hs : a.isLive s)
    (h : a.Path s w t) : a.isLive t := by
  induction w generalizing s with
  | nil =>
    rw [← path_nil_iff.1 h]
    exact hs
  | cons c w ih =>
    obtain ⟨u, he, hp⟩ := path_cons_iff_edge.1 h
    exact ih (hl he) hp

/-! ## Saying whether words end at a state -/

theorem exists_setFinal (h : a.isLive s) (b : Bool) : ∃ a', a.setFinal s b = .ok a' := by
  obtain ⟨x, hx⟩ := isLive_iff.1 h
  exact ⟨_, setFinal_eq_ok_iff.2 ⟨x, hx, rfl⟩⟩

theorem get?_of_setFinal {b : Bool} (h : a.setFinal s b = .ok a') :
    ∃ x, a.get? s = some x ∧
      ∀ t, a'.get? t = if t = s then some { x with isFinal := b } else a.get? t := by
  obtain ⟨x, hx, rfl⟩ := setFinal_eq_ok_iff.1 h
  exact ⟨x, hx, fun t => get?_put (slot_lt_of_get? hx)⟩

theorem Tidy.setFinal {b : Bool} (ht : a.Tidy) (h : a.setFinal s b = .ok a') : a'.Tidy := by
  obtain ⟨x, hx, rfl⟩ := setFinal_eq_ok_iff.1 h
  exact ht.put hx _

theorem live_of_setFinal {b : Bool} (h : a.setFinal s b = .ok a') : a'.live = a.live := by
  obtain ⟨x, hx, rfl⟩ := setFinal_eq_ok_iff.1 h
  rfl

theorem isLive_of_setFinal_iff {b : Bool} (h : a.setFinal s b = .ok a') :
    a'.isLive t ↔ a.isLive t := by
  obtain ⟨x, hx, hget⟩ := get?_of_setFinal h
  rw [isLive_iff, isLive_iff, hget]
  by_cases ht : t = s
  · simp [ht, hx]
  · rw [if_neg ht]

theorem edge_of_setFinal_iff {b : Bool} (h : a.setFinal s b = .ok a') :
    a'.Edge t c u ↔ a.Edge t c u := by
  obtain ⟨x, hx, hget⟩ := get?_of_setFinal h
  rw [Edge, hget, Edge]
  by_cases ht : t = s
  · simp [ht, hx]
  · rw [if_neg ht]

/-! ## Pointing an edge -/

theorem get?_of_setEdge {old : Option StateId} (h : a.setEdge s c t = .ok (old, a')) :
    ∃ x, a.get? s = some x ∧
      ∀ u, a'.get? u = if u = s then some { x with edges := x.edges.set c t } else a.get? u := by
  obtain ⟨-, x, hx, -, rfl⟩ := setEdge_eq_ok_iff.1 h
  exact ⟨x, hx, fun u => get?_put (slot_lt_of_get? hx)⟩

theorem Tidy.setEdge {old : Option StateId} (ht : a.Tidy)
    (h : a.setEdge s c t = .ok (old, a')) : a'.Tidy := by
  obtain ⟨-, x, hx, -, rfl⟩ := setEdge_eq_ok_iff.1 h
  exact ht.put hx _

theorem isLive_of_setEdge_iff {old : Option StateId} (h : a.setEdge s c t = .ok (old, a')) :
    a'.isLive u ↔ a.isLive u := by
  obtain ⟨x, hx, hget⟩ := get?_of_setEdge h
  rw [isLive_iff, isLive_iff, hget]
  by_cases hu : u = s
  · simp [hu, hx]
  · rw [if_neg hu]

theorem edge_of_setEdge_iff {old : Option StateId} {r : StateId}
    (h : a.setEdge s c t = .ok (old, a')) :
    a'.Edge u d r ↔ if u = s ∧ d = c then r = t else a.Edge u d r := by
  obtain ⟨x, hx, hget⟩ := get?_of_setEdge h
  rw [Edge, hget]
  by_cases hu : u = s
  · subst hu
    by_cases hd : d = c
    · subst hd
      simp [eq_comm]
    · simp [hd, Edge, hx, EdgeTable.find?_set_of_ne hd]
  · simp [hu, Edge]

/-! ## Ranks -/

/-- A rank of the states falls along every edge. -/
def Ranked (a : Arena σ) (rank : StateId → Nat) : Prop :=
  ∀ {s c t}, a.Edge s c t → rank t < rank s

namespace Ranked

variable {rank : StateId → Nat}

theorem add_length_le (hr : a.Ranked rank) (h : a.Path s w t) : rank t + w.length ≤ rank s := by
  induction w generalizing s with
  | nil => simp [path_nil_iff.1 h]
  | cons c w ih =>
    obtain ⟨u, he, hp⟩ := path_cons_iff_edge.1 h
    have := hr he
    have := ih hp
    rw [List.length_cons]
    omega

/-- A graph whose states have ranks has no cycle. -/
theorem acyclic (hr : a.Ranked rank) (h : a.Path s w s) : w = [] := by
  have := hr.add_length_le h
  exact List.length_eq_zero_iff.1 (by omega)

theorem length_le_of_accepts (hr : a.Ranked rank) (h : a.Accepts s w) : w.length ≤ rank s := by
  obtain ⟨t, x, hp, -⟩ := h
  have := hr.add_length_le hp
  omega

end Ranked

/-! ## Graphs without cycles -/

/-- What can be reached from a state are states, and there is no cycle among them. -/
structure Dag (a : Arena σ) (s : StateId) : Prop where
  intact : a.Intact s
  acyclic : a.Acyclic s

/-- A rank that falls along all edges of a graph without dangling edges shows that there is no
cycle. -/
theorem Ranked.dag {rank : StateId → Nat} (hr : a.Ranked rank)
    (hl : ∀ {s c t}, a.Edge s c t → a.isLive t) (hs : a.isLive s) : a.Dag s where
  intact := fun _ ⟨_, h⟩ => isLive_of_path hl hs h
  acyclic := fun _ _ _ h => hr.acyclic h

namespace Dag

theorem of_reaches (h : a.Dag s) (hr : a.Reaches s t) : a.Dag t where
  intact := fun u hu => h.intact u (hr.trans hu)
  acyclic := fun u w hu hp => h.acyclic u w (hr.trans hu) hp

theorem of_edge (h : a.Dag s) (he : a.Edge s c t) : a.Dag t := h.of_reaches he.reaches

theorem isLive (h : a.Dag s) : a.isLive s := h.intact s (.refl s)

/-- **The states in reach have ranks** below the number of slots: the number of other states that can
be reached from them. -/
theorem exists_rank (h : a.Dag s) : ∃ rank : StateId → Nat,
    (∀ t, a.Reaches s t → rank t < a.slotCount) ∧
      ∀ {t c u}, a.Reaches s t → a.Edge t c u → rank u < rank t := by
  classical
  refine ⟨fun t => ((Finset.range a.slotCount).filter fun i => a.Reaches t ⟨i⟩ ∧ ⟨i⟩ ≠ t).card,
    fun t ht => ?_, fun {t c u} ht he => ?_⟩
  · obtain ⟨x, hx⟩ := isLive_iff.1 (h.intact t ht)
    have hsub : (Finset.range a.slotCount).filter (fun i => a.Reaches t ⟨i⟩ ∧ ⟨i⟩ ≠ t) ⊂
        Finset.range a.slotCount :=
      Finset.filter_ssubset.2 ⟨t.slot, Finset.mem_range.2 (slot_lt_of_get? hx),
        fun ht => ht.2 rfl⟩
    simpa using Finset.card_lt_card hsub
  · have hnot : ∀ v, a.Reaches u v → v ≠ t := by
      rintro _ ⟨w, hw⟩ rfl
      exact nomatch h.acyclic _ (c :: w) ht (path_cons_iff_edge.2 ⟨u, he, hw⟩)
    obtain ⟨x, hx⟩ := isLive_iff.1 (h.intact u (ht.trans he.reaches))
    refine Finset.card_lt_card (Finset.ssubset_iff_of_subset ?_ |>.2 ⟨u.slot, ?_, ?_⟩)
    · intro i hi
      rw [Finset.mem_filter] at hi ⊢
      exact ⟨hi.1, he.reaches.trans hi.2.1, hnot _ hi.2.1⟩
    · exact Finset.mem_filter.2 ⟨Finset.mem_range.2 (slot_lt_of_get? hx), he.reaches,
        hnot u (.refl u)⟩
    · exact fun hi => (Finset.mem_filter.1 hi).2.2 rfl

/-- Words that lead somewhere are shorter than there are slots. -/
theorem length_lt_of_path (h : a.Dag s) (hp : a.Path s w t) : w.length < a.slotCount := by
  obtain ⟨rank, hlt, hr⟩ := h.exists_rank
  suffices hle : ∀ {u w}, a.Reaches s u → a.Path u w t → rank t + w.length ≤ rank u by
    have := hle (.refl s) hp
    have := hlt s (.refl s)
    omega
  intro u w hu hp
  induction w generalizing u with
  | nil => simp [path_nil_iff.1 hp]
  | cons c w ih =>
    obtain ⟨v, he, hp⟩ := path_cons_iff_edge.1 hp
    have := hr hu he
    have := ih (hu.trans he.reaches) hp
    rw [List.length_cons]
    omega

/-- Accepted words are shorter than there are slots. -/
theorem length_lt_of_accepts (h : a.Dag s) (hw : a.Accepts s w) : w.length < a.slotCount := by
  obtain ⟨t, x, hp, -⟩ := hw
  exact h.length_lt_of_path hp

end Dag

/-- **A graph without dangling edges and cycles has ranks**: the lengths of the longest words that lead
from its states. -/
theorem exists_ranked (hl : ∀ {s c t}, a.Edge s c t → a.isLive t)
    (hc : ∀ {s w}, a.Path s w s → w = []) : ∃ rank, a.Ranked rank := by
  classical
  have hlt : ∀ {s t w}, a.isLive s → a.Path s w t → w.length < a.slotCount := fun hs hp =>
    Dag.length_lt_of_path ⟨fun _ ⟨_, h⟩ => isLive_of_path hl hs h, fun _ _ _ h => hc h⟩ hp
  let leads (s : StateId) (n : Nat) : Prop := ∃ w t, a.Path s w t ∧ w.length = n
  refine ⟨fun s => Nat.findGreatest (leads s) a.slotCount, fun {s c t} he => ?_⟩
  -- the longest word from the target is longer by one symbol from the source
  obtain ⟨w, u, hp, hw⟩ : leads t (Nat.findGreatest (leads t) a.slotCount) :=
    Nat.findGreatest_spec (P := leads t) (Nat.zero_le _) ⟨[], t, .nil t, rfl⟩
  have hlong : a.Path s (c :: w) u := path_cons_iff_edge.2 ⟨t, he, hp⟩
  have hle := Nat.le_findGreatest (P := leads s) (Nat.le_of_lt (hlt he.isLive hlong)) ⟨_, _, hlong, rfl⟩
  rw [List.length_cons, hw] at hle
  exact hle

/-! ## Languages that do not change -/

/-- If a set of states is closed under edges and its states are unchanged, they accept what they
accepted. -/
theorem accepts_congr {p : StateId → Prop} (hget : ∀ s, p s → a'.get? s = a.get? s)
    (hedge : ∀ {s c t}, p s → a.Edge s c t → p t) (hs : p s) :
    a'.Accepts s w ↔ a.Accepts s w := by
  induction w generalizing s with
  | nil => rw [accepts_nil_iff, accepts_nil_iff, hget s hs]
  | cons c w ih =>
    rw [accepts_cons_iff, accepts_cons_iff]
    refine exists_congr fun t => ?_
    rw [Edge.congr (hget s hs)]
    exact and_congr_right fun he => ih (hedge hs he)

/-- States with the same edges and the same end accept the same words. -/
theorem accepts_of_edges_eq (hx : a.get? s = some x) (hy : a.get? t = some y)
    (hf : x.isFinal = y.isFinal) (he : x.edges = y.edges) : a.Accepts s w ↔ a.Accepts t w := by
  cases w with
  | nil => rw [accepts_nil_iff_of_get? hx, accepts_nil_iff_of_get? hy, hf]
  | cons c w =>
    rw [accepts_cons_iff, accepts_cons_iff]
    refine exists_congr fun u => and_congr_left fun _ => ?_
    rw [edge_iff_mem hx, edge_iff_mem hy, he]

end WordGraph.Arena
