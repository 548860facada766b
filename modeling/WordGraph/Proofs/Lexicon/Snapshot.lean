import Mathlib
import WordGraph.Proofs.Dump.Write
import WordGraph.Proofs.Lexicon.Measure
import WordGraph.Proofs.Lexicon.Resume
import WordGraph.Proofs.Lexicon.Slots
import WordGraph.Snapshot.Reading

/-!
# What a snapshot shows

A snapshot names the states in reach by their serials, and no two states of a lexicon have one serial.
So each state in reach has a node of its own, the edges are those between these states, and the words that
are read off are the words of the lexicon.

* `drawing`, `snapshot_eq` — what a snapshot lists, by the states in reach
* `Faithful`, `Listed.faithful` — a snapshot shows what is in reach, and nothing else
* `Faithful.reads_iff` — the words that are read off are those that are accepted
* `Reachable.pictured` — the snapshot of a lexicon, and the numbers that go with it
-/

namespace WordGraph

open Arena Dump

variable {σ : Type} [Symbol σ]

namespace Arena

variable {a : Arena σ} {s : StateId} {x : State σ}

/-! ## What a snapshot lists -/

/-- The serial of the state that an identifier names. -/
def serialOf (a : Arena σ) (s : StateId) : Nat := (a.get? s).elim 0 State.serial

theorem serialOf_of_get? (hx : a.get? s = some x) : a.serialOf s = x.serial := by
  rw [serialOf, hx]
  rfl

/-- The edges of a state as a snapshot lists them. -/
def drawnEdges (a : Arena σ) (x : State σ) : List (Snapshot.Edge σ) :=
  x.edges.edges.map fun e => ⟨x.serial, e.1, a.serialOf e.2⟩

/-- The snapshot of listed states. -/
def drawing (a : Arena σ) (states : List (StateId × State σ)) : Snapshot σ where
  nodes := states.map fun p => ⟨p.2.serial, p.2.isFinal⟩
  edges := states.flatMap fun p => a.drawnEdges p.2

theorem serials_drawing (a : Arena σ) (states : List (StateId × State σ)) :
    (a.drawing states).nodes.map Snapshot.Node.serial = states.map fun p => p.2.serial := by
  rw [drawing, List.map_map]
  rfl

theorem snapshotEdges_eq (h : ∀ e ∈ x.edges.edges, a.isLive e.2) :
    a.snapshotEdges x = .ok (a.drawnEdges x) := by
  refine mapM_eq_ok_map fun e he => ?_
  obtain ⟨y, hy⟩ := isLive_iff.1 (h e he)
  rw [state_eq_ok_iff.2 hy, ok_bind, serialOf_of_get? hy]
  rfl

end Arena

namespace Dump

/-- The states in reach can be listed. -/
theorem exists_listed {a : Arena σ} {root : StateId} (h : a.Intact root) :
    ∃ states, Listed a root states := by
  obtain ⟨order, horder⟩ := exists_preorder h
  obtain ⟨states, -, rfl, hget⟩ :=
    exists_mapM_state fun s hs => h s ((mem_preorder_iff horder).1 hs)
  exact ⟨states, horder, hget⟩

namespace Listed

variable {a : Arena σ} {root : StateId} {states : List (StateId × State σ)}
  (h : Listed a root states)

include h

/-- The listed states are looked up one after the other. -/
theorem mapM_state : (states.map Prod.fst).mapM a.state = .ok (states.map Prod.snd) := by
  rw [List.mapM_map]
  exact mapM_eq_ok_map fun p hp => state_eq_ok_iff.2 (h.get? p hp)

/-- **A snapshot lists the states in reach** and their edges. -/
theorem snapshot_eq (hi : a.Intact root) : a.snapshot root = .ok (a.drawing states) := by
  have hedges : (states.map Prod.snd).mapM a.snapshotEdges =
      .ok ((states.map Prod.snd).map a.drawnEdges) := by
    refine mapM_eq_ok_map fun x hx => snapshotEdges_eq fun e he => ?_
    obtain ⟨p, hp, rfl⟩ := List.mem_map.1 hx
    have hreach := h.mem_iff.1 (List.mem_map_of_mem hp)
    exact hi e.2 (hreach.trans ((edge_iff_mem (h.get? p hp)).2 he).reaches)
  rw [snapshot, h.preorder_eq, ok_bind, h.mapM_state, ok_bind, hedges]
  simp only [ok_bind, drawing, List.map_map, List.flatMap_def]
  rfl

end Listed

end Dump

/-! ## What a snapshot shows -/

namespace Arena

variable {a : Arena σ} {s t : StateId} {node node' : Snapshot.Node}

/-- A snapshot is a faithful picture of what can be reached from a state. -/
structure Faithful (a : Arena σ) (root : StateId) (g : Snapshot σ) : Prop where
  /-- No two nodes have one serial. -/
  nodup : (g.nodes.map Snapshot.Node.serial).Nodup
  /-- The first node is that of the start. -/
  first : ∃ node ∈ g.nodes.head?, a.Shows root node
  /-- Each state in reach has exactly one node. -/
  node_of_state : ∀ s, a.Reaches root s → ∃! node, node ∈ g.nodes ∧ a.Shows s node
  /-- Each node is that of exactly one state in reach. -/
  state_of_node : ∀ node ∈ g.nodes, ∃! s, a.Reaches root s ∧ a.Shows s node
  /-- The edges are those of the states in reach. -/
  edge_iff : ∀ e, e ∈ g.edges ↔ ∃ s t source target, a.Reaches root s ∧ a.Edge s e.symbol t ∧
    a.Shows s source ∧ a.Shows t target ∧ e.source = source.serial ∧ e.target = target.serial
  /-- Both ends of an edge are listed. -/
  ends : ∀ e ∈ g.edges, e.source ∈ g.nodes.map Snapshot.Node.serial ∧
    e.target ∈ g.nodes.map Snapshot.Node.serial
  /-- The edges are grouped by source in the order of the nodes, their symbols increasing. -/
  grouped : g.edges.Pairwise fun e e' =>
    (g.nodes.map Snapshot.Node.serial).idxOf e.source <
        (g.nodes.map Snapshot.Node.serial).idxOf e'.source ∨
      e.source = e'.source ∧ e.symbol < e'.symbol

/-- A node that shows a state has the serial of no other. -/
theorem Stamped.eq_of_shows (h : a.Stamped) (hs : a.Shows s node)
    (ht : a.Shows t node') (heq : node.serial = node'.serial) : s = t := by
  obtain ⟨x, hx, hserial, -⟩ := hs
  obtain ⟨y, hy, hserial', -⟩ := ht
  exact h.inj hx hy (by rw [← hserial, ← hserial', heq])

end Arena

namespace Dump.Listed

variable {a : Arena σ} {root : StateId} {states : List (StateId × State σ)}
  (h : Listed a root states)

include h

/-- Each listed state has its node in the drawing. -/
theorem mem_nodes_iff {node : Snapshot.Node} :
    node ∈ (a.drawing states).nodes ↔ ∃ s, a.Reaches root s ∧ a.Shows s node := by
  constructor
  · intro hnode
    obtain ⟨p, hp, rfl⟩ := List.mem_map.1 hnode
    exact ⟨p.1, h.mem_iff.1 (List.mem_map_of_mem hp), p.2, h.get? p hp, rfl, rfl⟩
  · rintro ⟨s, hs, x, hx, hserial, hfinal⟩
    refine List.mem_map.2 ⟨(s, x), h.mem_of_get? (h.mem_iff.2 hs) hx, ?_⟩
    cases node
    exact Snapshot.Node.mk.injEq .. ▸ ⟨hserial.symm, hfinal.symm⟩

theorem nodup_serials (hs : a.Stamped) :
    ((a.drawing states).nodes.map Snapshot.Node.serial).Nodup := by
  rw [serials_drawing]
  refine List.pairwise_map.2 ((List.pairwise_map.1 h.nodup).imp_of_mem ?_)
  intro p q hp hq hne heq
  exact hne (hs.inj (h.get? p hp) (h.get? q hq) heq)

/-- The edges of the drawing are those of the listed states. -/
theorem mem_edges_iff {e : Snapshot.Edge σ} (hi : a.Intact root) :
    e ∈ (a.drawing states).edges ↔ ∃ s t source target, a.Reaches root s ∧ a.Edge s e.symbol t ∧
      a.Shows s source ∧ a.Shows t target ∧ e.source = source.serial ∧ e.target = target.serial := by
  constructor
  · intro he
    obtain ⟨p, hp, he⟩ := List.mem_flatMap.1 he
    obtain ⟨⟨c, t⟩, hct, rfl⟩ := List.mem_map.1 he
    have hx := h.get? p hp
    have hs := h.mem_iff.1 (List.mem_map_of_mem hp)
    have hedge : a.Edge p.1 c t := (edge_iff_mem hx).2 hct
    obtain ⟨y, hy⟩ := isLive_iff.1 (hi t (hs.trans hedge.reaches))
    exact ⟨p.1, t, ⟨p.2.serial, p.2.isFinal⟩, ⟨y.serial, y.isFinal⟩, hs, hedge, ⟨p.2, hx, rfl, rfl⟩,
      ⟨y, hy, rfl, rfl⟩, rfl, serialOf_of_get? hy⟩
  · rintro ⟨s, t, source, target, hs, hedge, ⟨x, hx, hserial, -⟩, ⟨y, hy, hserial', -⟩, he, he'⟩
    refine List.mem_flatMap.2 ⟨(s, x), h.mem_of_get? (h.mem_iff.2 hs) hx, ?_⟩
    refine List.mem_map.2 ⟨(e.symbol, t), (edge_iff_mem hx).1 hedge, ?_⟩
    cases e
    simp only [Snapshot.Edge.mk.injEq, true_and]
    exact ⟨(he.trans hserial).symm, (serialOf_of_get? hy).trans (he'.trans hserial').symm⟩

theorem grouped_edges (hs : a.Stamped) : (a.drawing states).edges.Pairwise fun e e' =>
    ((a.drawing states).nodes.map Snapshot.Node.serial).idxOf e.source <
        ((a.drawing states).nodes.map Snapshot.Node.serial).idxOf e'.source ∨
      e.source = e'.source ∧ e.symbol < e'.symbol := by
  have hlt := pairwise_idxOf_lt (h.nodup_serials hs)
  rw [serials_drawing] at hlt ⊢
  refine List.pairwise_flatMap.2 ⟨fun p _ => ?_, ?_⟩
  · exact List.pairwise_map.2 (p.2.edges.sorted.imp fun hlt => .inr ⟨rfl, hlt⟩)
  · refine (List.pairwise_map.1 hlt).imp fun hlt e he e' he' => .inl ?_
    obtain ⟨-, -, rfl⟩ := List.mem_map.1 he
    obtain ⟨-, -, rfl⟩ := List.mem_map.1 he'
    exact hlt

/-- **A snapshot is a faithful picture**, if no two states have one serial. -/
theorem faithful (hi : a.Intact root) (hs : a.Stamped) : Faithful a root (a.drawing states) := by
  constructor
  case nodup => exact h.nodup_serials hs
  case first =>
    obtain ⟨rest, hrest⟩ := exists_preorder_eq_cons h.preorder_eq
    obtain ⟨p, states, rfl, hp, -⟩ := List.map_eq_cons_iff.1 hrest
    exact ⟨_, rfl, p.2, hp ▸ h.get? p (List.mem_cons_self ..), rfl, rfl⟩
  case node_of_state =>
    intro s hs
    obtain ⟨x, hx⟩ := isLive_iff.1 (hi s hs)
    have hshows : a.Shows s ⟨x.serial, x.isFinal⟩ := ⟨x, hx, rfl, rfl⟩
    exact ⟨_, ⟨h.mem_nodes_iff.2 ⟨s, hs, hshows⟩, hshows⟩, fun _ hnode => hnode.2.unique hshows⟩
  case state_of_node =>
    intro node hnode
    obtain ⟨s, hreach, hshows⟩ := h.mem_nodes_iff.1 hnode
    exact ⟨s, ⟨hreach, hshows⟩, fun t ht => hs.eq_of_shows ht.2 hshows rfl⟩
  case edge_iff => exact fun e => h.mem_edges_iff hi
  case ends =>
    intro e he
    obtain ⟨s, t, source, target, hreach, hedge, hsource, htarget, hes, het⟩ :=
      (h.mem_edges_iff hi).1 he
    rw [hes, het]
    exact ⟨List.mem_map_of_mem (h.mem_nodes_iff.2 ⟨s, hreach, hsource⟩),
      List.mem_map_of_mem (h.mem_nodes_iff.2 ⟨t, hreach.trans hedge.reaches, htarget⟩)⟩
  case grouped => exact h.grouped_edges hs

end Dump.Listed

/-! ## What is read off -/

namespace Arena.Faithful

variable {a : Arena σ} {root s : StateId} {g : Snapshot σ} {w : Word σ} {n : Nat}
  {node : Snapshot.Node}

/-- The words that lead somewhere in the picture lead to the state that is shown there. -/
theorem path_iff (h : Faithful a root g) (ha : a.Stamped) (hs : a.Reaches root s)
    (hnode : a.Shows s node) :
    g.Path node.serial w n ↔ ∃ t target, a.Path s w t ∧ a.Shows t target ∧ target.serial = n := by
  induction w generalizing s node with
  | nil =>
    rw [Snapshot.path_nil_iff]
    constructor
    · rintro rfl
      exact ⟨s, node, .nil s, hnode, rfl⟩
    · rintro ⟨t, target, hp, ht, rfl⟩
      obtain rfl := path_nil_iff.1 hp
      rw [hnode.unique ht]
  | cons c w ih =>
    rw [Snapshot.path_cons_iff]
    constructor
    · rintro ⟨e, he, hsource, rfl, hp⟩
      obtain ⟨s', t, source, target, hs', hedge, hsource', htarget, hes, het⟩ := (h.edge_iff e).1 he
      obtain rfl : s' = s := ha.eq_of_shows hsource' hnode (hes.symm.trans hsource)
      rw [het] at hp
      obtain ⟨u, last, hpath, hu, hn⟩ := (ih (hs.trans hedge.reaches) htarget).1 hp
      exact ⟨u, last, path_cons_iff_edge.2 ⟨t, hedge, hpath⟩, hu, hn⟩
    · rintro ⟨u, last, hpath, hu, hn⟩
      obtain ⟨t, hedge, hpath⟩ := path_cons_iff_edge.1 hpath
      have ht := hs.trans hedge.reaches
      obtain ⟨target, ⟨-, htarget⟩, -⟩ := h.node_of_state t ht
      refine ⟨⟨node.serial, c, target.serial⟩, (h.edge_iff _).2 ?_, rfl, rfl, ?_⟩
      · exact ⟨s, t, node, target, hs, hedge, hnode, htarget, rfl, rfl⟩
      · exact (ih ht htarget).2 ⟨u, last, hpath, hu, hn⟩

/-- **The words that are read off a faithful picture are those that are accepted.** -/
theorem reads_iff (h : Faithful a root g) (ha : a.Stamped) : g.Reads w ↔ a.Accepts root w := by
  obtain ⟨first, hfirst, hroot⟩ := h.first
  constructor
  · rintro ⟨first', hfirst', node, hnode, hfinal, hp⟩
    obtain rfl := Option.mem_unique hfirst hfirst'
    obtain ⟨t, target, hpath, ht, hserial⟩ := (h.path_iff ha (.refl root) hroot).1 hp
    obtain ⟨s, ⟨-, hs⟩, -⟩ := h.state_of_node node hnode
    obtain rfl := ha.eq_of_shows ht hs hserial
    obtain ⟨x, hx, -, hend⟩ := hs
    exact ⟨t, x, hpath, hx, hend ▸ hfinal⟩
  · rintro ⟨t, x, hpath, hx, hend⟩
    obtain ⟨node, ⟨hnode, ht⟩, -⟩ := h.node_of_state t ⟨w, hpath⟩
    have hfinal : node.isFinal := by
      obtain ⟨y, hy, -, hend'⟩ := ht
      cases hx.symm.trans hy
      exact hend' ▸ hend
    exact ⟨first, hfirst, node, hnode, hfinal,
      (h.path_iff ha (.refl root) hroot).2 ⟨t, node, hpath, ht, rfl⟩⟩

end Arena.Faithful

/-! ## The picture of a lexicon -/

namespace Lexicon

variable {l : Lexicon σ}

/-- A snapshot and the numbers that go with it are a picture of a lexicon. -/
structure Pictured (l : Lexicon σ) (g : Snapshot σ) (n : Statistics) : Prop where
  faithful : Faithful l.arena l.root g
  /-- The words that are read off are the words of the lexicon. -/
  words : ∃ ws, l.words = .ok ws ∧ ws.length = n.words ∧ ∀ w, w ∈ ws ↔ g.Reads w
  nodes_eq : n.nodes = g.nodes.length
  edges_eq : n.edges = g.edges.length
  words_eq : {w | g.Reads w}.encard = n.words
  length_le : ∀ w, g.Reads w → w.length ≤ n.longest
  /-- The length of the longest word is 0 if there is no word. -/
  longest_eq : (∃ w, g.Reads w ∧ w.length = n.longest) ∨ (∀ w, ¬g.Reads w) ∧ n.longest = 0

/-- The statistics count what a snapshot lists. -/
theorem statistics_eq {states : List (StateId × State σ)} (h : Listed l.arena l.root states) :
    l.statistics = .ok ⟨(l.arena.drawing states).nodes.length,
      (l.arena.drawing states).edges.length, l.size, l.longest⟩ := by
  have hedges : total (fun x => x.edges.size) (states.map Prod.snd) =
      (l.arena.drawing states).edges.length := by
    rw [drawing, length_flatMap_eq_total, total_map]
    simp only [drawnEdges, List.length_map, EdgeTable.size]
  rw [statistics, h.preorder_eq, ok_bind, h.mapM_state, ok_bind, hedges, List.length_map, drawing,
    List.length_map]
  rfl

/-- **A snapshot is a faithful picture of a lexicon**, whatever has led to it, and the statistics are
right. -/
theorem Reachable.pictured (h : Reachable l) :
    ∃ g n, l.snapshot = .ok g ∧ l.statistics = .ok n ∧ Pictured l g n := by
  have hvalid := h.valid
  have hdag := hvalid.sound.dag_root
  have hstamped := h.steps.stamped
  have hmeasured := h.measured
  obtain ⟨states, hlisted⟩ := exists_listed hdag.intact
  have hfaithful := hlisted.faithful hdag.intact hstamped
  have hreads : ∀ w, (l.arena.drawing states).Reads w ↔ l.Holds w :=
    fun w => hfaithful.reads_iff hstamped
  refine ⟨_, _, hlisted.snapshot_eq hdag.intact, statistics_eq hlisted, ?_⟩
  constructor
  case faithful => exact hfaithful
  case words =>
    exact ⟨_, words_eq hdag, hvalid.size_eq.symm,
      fun w => (mem_listing_iff hdag).trans (hreads w).symm⟩
  case nodes_eq => rfl
  case edges_eq => rfl
  case words_eq => simpa only [hreads] using hmeasured.size_eq
  case length_le => simpa only [hreads] using hmeasured.length_le
  case longest_eq => simpa only [hreads] using hmeasured.longest_eq

/-- The states behind 3 and 3 2 have given way to those behind 1 and 1 2, and the word 4 has taken a slot
of theirs, but neither of their serials. -/
theorem pictured_of_three_words :
    ∃ l : Lexicon UInt8, l = (new 0).after [.add [1, 2], .add [3, 2], .add [4]] ∧
      l.arena.slotCount = 5 ∧
      l.snapshot = .ok ⟨[⟨0, false⟩, ⟨1, false⟩, ⟨2, true⟩, ⟨5, true⟩],
        [⟨0, 1, 1⟩, ⟨0, 3, 1⟩, ⟨0, 4, 5⟩, ⟨1, 2, 2⟩]⟩ ∧
      l.statistics = .ok ⟨4, 4, 3, 2⟩ ∧
      ∃ g n, l.snapshot = .ok g ∧ l.statistics = .ok n ∧ Pictured l g n := by
  obtain ⟨l, hl⟩ : ∃ l : Lexicon UInt8,
      l = (new 0).after [.add [1, 2], .add [3, 2], .add [4]] := ⟨_, rfl⟩
  have hcount : l.arena.slotCount = 5 := by
    subst hl
    cbv
  have hsnapshot : l.snapshot = .ok ⟨[⟨0, false⟩, ⟨1, false⟩, ⟨2, true⟩, ⟨5, true⟩],
      [⟨0, 1, 1⟩, ⟨0, 3, 1⟩, ⟨0, 4, 5⟩, ⟨1, 2, 2⟩]⟩ := by
    subst hl
    cbv
  have hstatistics : l.statistics = .ok ⟨4, 4, 3, 2⟩ := by
    subst hl
    cbv
  have hreach : Reachable l := hl ▸ .after (.new 0) _
  exact ⟨l, hl, hcount, hsnapshot, hstatistics, Reachable.pictured hreach⟩

end Lexicon

end WordGraph
