import WordGraph.Proofs.Dump.Checks
import WordGraph.Proofs.Lexicon.Valid

/-!
# What is loaded is valid

The checks of a load leave nothing open: contents that pass them make a lexicon with the invariant
that holds between any two operations. The rank that shows that the graph has no cycle is the place
in the order in which a search leaves its states.

* `Spelled`, `Counted`, `Checked` — what the checks have found
* `Checked.sound` — the automaton
* `valid_of_ofContents` — the lexicon
-/

namespace WordGraph

open Arena Automaton

variable {σ : Type} [Symbol σ]

namespace Arena

variable {a : Arena σ} {root : StateId} {order : List StateId}

/-- The places in a list of all states, children first, are ranks. -/
theorem Topological.ranked (h : a.Topological root order) (hall : ∀ s, a.isLive s → s ∈ order) :
    ∃ rank, a.Ranked rank :=
  ⟨order.idxOf, fun {s _ _} he => h.idxOf_lt (h.mem_iff.1 (hall s he.isLive)) he⟩

end Arena

namespace Dump

variable {a : Arena σ} {s s' t : StateId} {c c' : σ} {nodes : List Node} {edges : List (Edge σ)}
  {order : List StateId} {path : List (σ × StateId)} {register : Register σ} {k : Contents σ}

/-- A node to which one edge leads is the target of one edge. -/
theorem Described.unique_of_inDegree (h : Described nodes edges a) (hdeg : inDegree edges t = 1)
    (he : a.Edge s c t) (he' : a.Edge s' c' t) : s = s' ∧ c = c' := by
  rw [inDegree, List.countP_eq_length_filter, List.length_eq_one_iff] at hdeg
  obtain ⟨e, hone⟩ := hdeg
  have hmem : ∀ {s c}, a.Edge s c t → (⟨s.slot, c, t.slot⟩ : Edge σ) = e := by
    intro s c he
    rw [← List.mem_singleton, ← hone, List.mem_filter]
    exact ⟨h.edge_iff.1 he, by simp⟩
  obtain ⟨i⟩ := s
  obtain ⟨j⟩ := s'
  have hsame := (hmem he).trans (hmem he').symm
  cases hsame
  exact ⟨rfl, rfl⟩

/-- All states are in reach of the first slot. -/
theorem reaches_of_checkGraph (h : checkGraph a = .ok order) (hs : s.slot < a.slotCount) :
    a.Reaches ⟨0⟩ s :=
  (mem_preorder_iff (checkGraph_eq_ok_iff.1 h).2).1 (mem_slotsOf_iff.2 hs)

theorem topological_of_checkGraph (h : checkGraph a = .ok order) : a.Topological ⟨0⟩ order :=
  topological_of_postorder (checkGraph_eq_ok_iff.1 h).1

theorem ranked_of_checkGraph (h : checkGraph a = .ok order) : ∃ rank, a.Ranked rank := by
  have htop := topological_of_checkGraph h
  refine htop.ranked fun s hs => htop.mem_iff.2 (reaches_of_checkGraph h ?_)
  obtain ⟨x, hx⟩ := isLive_iff.1 hs
  exact slot_lt_of_get? hx

/-- There is a first slot. -/
theorem slotCount_pos_of_checkGraph (h : checkGraph a = .ok order) : 0 < a.slotCount := by
  have hmem := (mem_preorder_iff (checkGraph_eq_ok_iff.1 h).2).2 (.refl (a := a) ⟨0⟩)
  exact mem_slotsOf_iff.1 hmem

omit [Symbol σ] in
/-- States that are set apart are on the path. -/
theorem Contents.mem_of_mem_setApart (ht : t ∈ k.setApart path) :
    t ∈ (⟨0⟩ : StateId) :: path.map Prod.snd := by
  rw [Contents.setApart, List.mem_append] at ht
  rcases ht with ht | ht
  · exact List.mem_cons_of_mem _ ht
  · split at ht
    · cases ht
    · rw [List.mem_singleton.1 ht]
      exact List.mem_cons_self ..

omit [Symbol σ] in
/-- As long as words can be added, the states on the path are set apart. -/
theorem Contents.mem_setApart (hlife : k.lifecycle ≠ .closed)
    (ht : t ∈ (⟨0⟩ : StateId) :: path.map Prod.snd) : t ∈ k.setApart path := by
  rw [Contents.setApart, if_neg hlife]
  rcases List.mem_cons.1 ht with rfl | ht
  · exact List.mem_append_right _ (List.mem_singleton.2 rfl)
  · exact List.mem_append_left _ ht

/-! ## Contents that pass the checks -/

/-- The graph is in order, and the last word spells a path. -/
structure Spelled (k : Contents σ) (a : Arena σ) (order : List StateId)
    (path : List (σ × StateId)) : Prop where
  within : Within k.nodes.length k.edges
  described : Described k.nodes k.edges a
  graph : checkGraph a = .ok order
  spelled : k.path a = .ok path

/-- The counts are those of the graph, and each node but the first accepts something. -/
structure Counted (k : Contents σ) (a : Arena σ) (order : List StateId) (n : Numbering)
    (path : List (σ × StateId)) : Prop extends Spelled k a order path where
  numbered : Numbering.compute a ⟨0⟩ = .ok (some n)
  counts : checkCounts n 0 k.nodes = .ok ()

/-- The checks of contents are passed, and this is what they have found. -/
structure Checked (k : Contents σ) (a : Arena σ) (order : List StateId) (n : Numbering)
    (path : List (σ × StateId)) (register : Register σ) : Prop extends Spelled k a order path where
  numbered : Numbering.compute a ⟨0⟩ = .ok (some n)
  counts : checkCounts n 0 k.nodes = .ok ()
  registered : registerAll a (marked a.slotCount (k.setApart path)) order = .ok register

namespace Spelled

variable (h : Spelled k a order path)

include h

theorem topological : a.Topological ⟨0⟩ order := topological_of_checkGraph h.graph

theorem isLive_iff : a.isLive s ↔ s.slot < a.slotCount := by
  rw [h.described.isLive_iff, h.described.slotCount_eq]

theorem root_live : a.isLive ⟨0⟩ := h.isLive_iff.2 (slotCount_pos_of_checkGraph h.graph)

theorem reaches (ht : a.isLive t) : a.Reaches ⟨0⟩ t :=
  reaches_of_checkGraph h.graph (h.isLive_iff.1 ht)

theorem dag : a.Dag ⟨0⟩ := by
  obtain ⟨rank, hrank⟩ := ranked_of_checkGraph h.graph
  exact hrank.dag (h.described.edge_live h.within) h.root_live

/-- No edge leads to the first slot, since every state is in reach of it. -/
theorem not_edge_root : ¬a.Edge s c ⟨0⟩ := by
  intro he
  obtain ⟨rank, hrank⟩ := ranked_of_checkGraph h.graph
  obtain ⟨w, hp⟩ := h.reaches he.isLive
  have hlt := hrank he
  have hle := hrank.add_length_le hp
  omega

/-- Whatever the life, the path is made of edges, each of them the only one to its target. -/
theorem forall_links : (∀ l ∈ links (⟨0⟩ : StateId) path, a.Edge l.1 l.2.1 l.2.2) ∧
    ∀ t ∈ path.map Prod.snd, inDegree k.edges t = 1 := by
  have hpath := path_eq_ok_iff.1 h.spelled
  cases hlife : k.lifecycle with
  | empty =>
    rw [hlife] at hpath
    obtain ⟨rfl, -⟩ := hpath
    simp [links]
  | active =>
    rw [hlife] at hpath
    exact ⟨hpath.2.1, hpath.2.2.1⟩
  | closed =>
    rw [hlife] at hpath
    obtain rfl := hpath
    simp [links]

theorem path_eq_nil (hlife : k.lifecycle ≠ .active) : path = [] := by
  have hpath := path_eq_ok_iff.1 h.spelled
  cases hk : k.lifecycle with
  | empty =>
    rw [hk] at hpath
    exact hpath.1
  | active => exact absurd hk hlife
  | closed =>
    rw [hk] at hpath
    exact hpath

theorem end_final (hlife : k.lifecycle = .active) : a.Accepts (endOf ⟨0⟩ path) [] := by
  have hpath := path_eq_ok_iff.1 h.spelled
  rw [hlife] at hpath
  exact hpath.2.2.2

theorem no_words (hlife : k.lifecycle = .empty) (w : Word σ) : ¬a.Accepts ⟨0⟩ w := by
  have hpath := path_eq_ok_iff.1 h.spelled
  rw [hlife] at hpath
  obtain ⟨-, -, hedges, -, hend⟩ := hpath
  cases w with
  | nil => exact hend
  | cons c w =>
    rw [accepts_cons_iff]
    rintro ⟨t, he, -⟩
    have he := h.described.edge_iff.1 he
    rw [hedges] at he
    cases he

end Spelled

namespace Counted

variable {n : Numbering} (h : Counted k a order n path)

include h

theorem count_spec : (a.listing ⟨0⟩).length < countLimit ∧
    ∀ s, a.Reaches ⟨0⟩ s → n.count s = (a.listing s).length := by
  rcases Numbering.compute_spec h.dag with ⟨hnone, -⟩ | ⟨m, hm, hlt, hcount⟩
  · rw [h.numbered] at hnone
    cases hnone
  · rw [h.numbered] at hm
    cases hm
    exact ⟨hlt, hcount⟩

/-- Every node but the first accepts a word. -/
theorem exists_accepts (ht : a.isLive t) (hne : t ≠ ⟨0⟩) : ∃ w, a.Accepts t w := by
  have hreach := h.reaches ht
  obtain ⟨j⟩ := t
  have hlt := h.described.isLive_iff.1 ht
  obtain ⟨hcount, hzero⟩ := checkCounts_eq_ok_iff.1 h.counts j _ (List.getElem?_eq_getElem hlt)
  rw [Nat.zero_add] at hcount hzero
  have hpos : (a.listing ⟨j⟩).length ≠ 0 := by
    intro hnil
    rw [← h.count_spec.2 _ hreach] at hnil
    exact hne (congrArg StateId.mk (hzero (hcount.symm.trans hnil)))
  obtain ⟨w, hw⟩ := List.exists_mem_of_length_pos (Nat.pos_of_ne_zero hpos)
  exact ⟨w, (mem_listing_iff (h.dag.of_reaches hreach)).1 hw⟩

end Counted

namespace Checked

variable {n : Numbering} (h : Checked k a order n path register)

include h

theorem counted : Counted k a order n path := ⟨h.toSpelled, h.numbered, h.counts⟩

/-- The states that are not set apart are registered. -/
theorem registers : Registers a (fun t => a.isLive t ∧ t ∉ k.setApart path) register := by
  refine (registerAll_ok h.registered).congr fun t => ?_
  have hmem : t ∈ order ↔ a.isLive t :=
    h.topological.mem_iff.trans ⟨fun ht => h.dag.intact t ht, h.reaches⟩
  rw [hmem]
  refine and_congr_right fun ht => not_congr ?_
  obtain ⟨i⟩ := t
  exact getElem?_marked (h.isLive_iff.1 ht)

/-- **A graph that passes the checks is that of a growing automaton**, with the path that was
spelled. -/
theorem sound : Sound ⟨a, register, ⟨0⟩, path⟩ where
  tidy := h.described.tidy
  root_live := h.root_live
  edge_live he := h.described.edge_live h.within he
  ranked := ranked_of_checkGraph h.graph
  edge_iff {s c t} ht := by
    obtain ⟨hlinks, hdeg⟩ := h.forall_links
    refine ⟨fun he => ?_, hlinks _⟩
    rcases List.mem_cons.1 ht with rfl | ht
    · exact absurd he h.not_edge_root
    -- some link of the path leads there, and it is the only edge that does
    · obtain ⟨l, hl, rfl⟩ := exists_link (⟨0⟩ : StateId) ht
      obtain ⟨rfl, rfl⟩ := h.described.unique_of_inDegree (hdeg _ ht) he (hlinks l hl)
      exact hl
  of_register hr := (h.registers.of_get? hr).2
  registered {t x} hx ht :=
    h.registers.get? ⟨isLive_of_get? hx, fun hm => ht (Contents.mem_of_mem_setApart hm)⟩ hx
  accepts ht hmem := h.counted.exists_accepts ht fun he => hmem (he ▸ List.mem_cons_self ..)

end Checked

end Dump

namespace Lexicon

open Dump

variable {l : Lexicon σ} {k : Contents σ} {identity : Nat}

/-- **What is loaded is valid.** -/
theorem valid_of_ofContents (hw : Within k.nodes.length k.edges) (hs : Sorted k.edges)
    (h : (ofContents identity k).result = .ok l) : l.Valid := by
  obtain ⟨a, order, n, lengths, path, register, ha, hgraph, hn, hcounts, hwords, hlengths, hlong,
    hpath, hreg, rfl⟩ := ofContents_eq_ok_iff.1 h
  obtain ⟨a', ha', hd⟩ := exists_arena hw hs
  rw [ha] at ha'
  cases ha'
  have hk : Checked k a order n path register := ⟨⟨hw, hd, hgraph, hpath⟩, hn, hcounts, hreg⟩
  obtain ⟨hlt, hcount⟩ := hk.counted.count_spec
  rw [hcount _ (.refl _)] at hwords
  exact {
    sound := hk.sound
    isOpen := fun hlife t s hr hmem =>
      (hk.registers.of_get? hr).1.2 (Contents.mem_setApart hlife hmem)
    path_eq := hk.path_eq_nil
    end_final := fun hlife => accepts_nil_iff.1 (hk.end_final hlife)
    no_words := hk.no_words
    size_eq := hwords.symm
    size_lt := hwords ▸ hlt
    longest := by
      obtain ⟨lengths', hrun, hlongest⟩ :=
        hk.topological.longestPaths_spec fun s hs => hk.dag.intact s (hk.topological.mem_iff.1 hs)
      rw [hlengths] at hrun
      cases hrun
      exact ⟨_, hlongest ⟨0⟩ (hk.topological.mem_iff.2 (.refl _)), hlong⟩
    numbering := by
      intro m hm
      cases hm }

end Lexicon

end WordGraph
