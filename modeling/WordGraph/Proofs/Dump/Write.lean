import Mathlib.Data.Set.Card
import WordGraph.Dump.Write
import WordGraph.Proofs.Arena.Preorder
import WordGraph.Proofs.Dump.Codec
import WordGraph.Proofs.Lexicon.Valid

/-!
# What a dump says

A dump of a valid lexicon always comes about. Its nodes are the states in reach, each with the number
of words accepted from it, and its edges are those between them, both ends told by the places of the
states in the order of a first visit.

* `Listed` — the states in reach with their contents
* `contentsOf` — what a dump says, by the listed states
* `Valid.contents_spec` — a dump says that
* `dumpTo_of_contents` — how much of it is written where the room is short
-/

namespace WordGraph

open Arena Automaton

variable {σ : Type} [Symbol σ]

/-- Along a word no state comes twice, so the word is shorter than there are states in reach. -/
theorem Arena.Dag.length_lt_ncard {a : Arena σ} {s t : StateId} {w : Word σ} (h : a.Dag s)
    (hfinite : {u | a.Reaches s u}.Finite) (hp : a.Path s w t) :
    w.length < {u | a.Reaches s u}.ncard := by
  induction w generalizing s with
  | nil => exact (Set.ncard_pos hfinite).2 ⟨s, .refl s⟩
  | cons c w ih =>
    obtain ⟨u, he, hp⟩ := path_cons_iff_edge.1 hp
    -- the state itself cannot be reached any more
    have hsub : {v | a.Reaches u v} ⊂ {v | a.Reaches s v} := by
      refine (Set.ssubset_iff_of_subset fun v hv => he.reaches.trans hv).2 ⟨s, Reaches.refl s, ?_⟩
      rintro ⟨v, hv⟩
      exact nomatch h.acyclic s (c :: v) (.refl s) (path_cons_iff_edge.2 ⟨u, he, hv⟩)
    have hlt := ih (h.of_edge he) (hfinite.subset hsub.subset) hp
    have hless := Set.ncard_lt_ncard hsub hfinite
    rw [List.length_cons]
    omega

namespace Dump

variable {a : Arena σ} {root s t : StateId} {c : σ} {order : List StateId} {m : Nat}
  {states : List (StateId × State σ)}

/-! ## Places -/

/-- The places of listed states can be looked up. -/
theorem getElem?_positions (hnd : order.Nodup) (hs : s ∈ order) (hlt : s.slot < m) :
    (positions m order)[s.slot]? = some (order.idxOf s) := by
  suffices hfold : ∀ (order : List StateId) (k : Nat) (places : Array Nat), order.Nodup →
      s.slot < places.size →
      ((order.zipIdx k).foldl (fun at? p => at?.setIfInBounds p.1.slot p.2) places)[s.slot]? =
        if s ∈ order then some (k + order.idxOf s) else places[s.slot]? by
    rw [positions, hfold order 0 _ hnd (by simpa using hlt), if_pos hs, Nat.zero_add]
  intro order
  induction order with
  | nil => simp
  | cons t order ih =>
    intro k places hnd hlt
    obtain ⟨ht, hnd⟩ := List.nodup_cons.1 hnd
    rw [List.zipIdx_cons, List.foldl_cons, ih (k + 1) _ hnd (by simpa using hlt)]
    by_cases hst : s = t
    · subst hst
      rw [if_neg ht, if_pos (List.mem_cons_self ..), List.idxOf_cons_self]
      simp [hlt]
    · rw [Array.getElem?_setIfInBounds_ne (slot_ne (Ne.symm hst)),
        List.idxOf_cons_ne _ (Ne.symm hst)]
      simp only [List.mem_cons, or_iff_right hst, Nat.add_assoc, Nat.add_comm 1]

/-! ## Listed states -/

/-- The states in reach in the order of a first visit, each with its content. -/
structure Listed (a : Arena σ) (root : StateId) (states : List (StateId × State σ)) : Prop where
  preorder_eq : a.preorder root = .ok (states.map Prod.fst)
  get? : ∀ p ∈ states, a.get? p.1 = some p.2

theorem exists_mapM_state (h : ∀ s ∈ order, a.isLive s) :
    ∃ states, (order.mapM fun s => return (s, ← a.state s) : Run σ _).result = .ok states ∧
      states.map Prod.fst = order ∧ ∀ p ∈ states, a.get? p.1 = some p.2 := by
  induction order with
  | nil => exact ⟨[], rfl, rfl, by simp⟩
  | cons s order ih =>
    obtain ⟨hs, horder⟩ := List.forall_mem_cons.1 h
    obtain ⟨x, hx⟩ := isLive_iff.1 hs
    obtain ⟨states, hrun, hmap, hget⟩ := ih horder
    refine ⟨(s, x) :: states, ?_, by rw [List.map_cons, hmap], List.forall_mem_cons.2 ⟨hx, hget⟩⟩
    simp only [List.mapM_cons, Run.result_bind, state_eq_ok_iff.2 hx, Run.result_liftM_ok, ok_bind,
      Run.result_pure, hrun]

namespace Listed

variable (h : Listed a root states)

include h

theorem mem_iff : s ∈ states.map Prod.fst ↔ a.Reaches root s := mem_preorder_iff h.preorder_eq

theorem nodup : (states.map Prod.fst).Nodup := nodup_preorder h.preorder_eq

theorem target_mem (hs : s ∈ states.map Prod.fst) (he : a.Edge s c t) :
    t ∈ states.map Prod.fst :=
  h.mem_iff.2 ((h.mem_iff.1 hs).trans he.reaches)

/-- A listed state stands in the list with its content. -/
theorem mem_of_get? {x : State σ} (hs : s ∈ states.map Prod.fst) (hx : a.get? s = some x) :
    (s, x) ∈ states := by
  obtain ⟨⟨t, y⟩, hm, rfl⟩ := List.mem_map.1 hs
  have hy := h.get? _ hm
  rw [hx] at hy
  cases hy
  exact hm

end Listed

/-- The edges of a state as a dump lists them, by the places of the listed states. -/
def placedEdges (order : List StateId) (p : StateId × State σ) : List (Edge σ) :=
  p.2.edges.edges.map fun e => ⟨order.idxOf p.1, e.1, order.idxOf e.2⟩

theorem Listed.edgesOf_eq (h : Listed a root states) {p : StateId × State σ} (hp : p ∈ states) :
    edgesOf (positions a.slotCount (states.map Prod.fst)) p.1 p.2 =
      placedEdges (states.map Prod.fst) p := by
  have hx := h.get? p hp
  have hmem : p.1 ∈ states.map Prod.fst := List.mem_map_of_mem hp
  have hlive : ∀ {t}, t ∈ states.map Prod.fst → t.slot < a.slotCount := by
    intro t ht
    obtain ⟨q, hq, rfl⟩ := List.mem_map.1 ht
    exact slot_lt_of_get? (h.get? q hq)
  refine List.map_congr_left fun e he => ?_
  have he : a.Edge p.1 e.1 e.2 := (edge_iff_mem hx).2 he
  have ht := h.target_mem hmem he
  rw [getElem?_positions h.nodup hmem (hlive hmem), getElem?_positions h.nodup ht (hlive ht)]
  rfl

/-- All edges between listed states as a dump lists them. -/
def edgesAmong (states : List (StateId × State σ)) : List (Edge σ) :=
  states.flatMap (placedEdges (states.map Prod.fst))

omit [Symbol σ] in
theorem pairwise_idxOf_lt {α : Type} [BEq α] [LawfulBEq α] {as : List α} (h : as.Nodup) :
    as.Pairwise fun a b => as.idxOf a < as.idxOf b := by
  rw [List.pairwise_iff_getElem]
  intro i j hi hj hlt
  rwa [h.idxOf_getElem i hi, h.idxOf_getElem j hj]

namespace Listed

variable (h : Listed a root states)

include h

/-- The edges of a dump are those between the listed states. -/
theorem mem_edgesAmong_iff {e : Edge σ} : e ∈ edgesAmong states ↔
    ∃ s t, s ∈ states.map Prod.fst ∧ a.Edge s e.symbol t ∧
      e.source = (states.map Prod.fst).idxOf s ∧ e.target = (states.map Prod.fst).idxOf t := by
  constructor
  · intro he
    obtain ⟨p, hp, he⟩ := List.mem_flatMap.1 he
    obtain ⟨⟨c, t⟩, hct, rfl⟩ := List.mem_map.1 he
    exact ⟨p.1, t, List.mem_map_of_mem hp, (edge_iff_mem (h.get? p hp)).2 hct, rfl, rfl⟩
  · rintro ⟨s, t, hs, ⟨x, hx, hc⟩, hsource, htarget⟩
    obtain ⟨i, c, j⟩ := e
    obtain rfl : i = _ := hsource
    obtain rfl : j = _ := htarget
    refine List.mem_flatMap.2 ⟨(s, x), h.mem_of_get? hs hx, ?_⟩
    exact List.mem_map.2 ⟨(c, t), EdgeTable.find?_eq_some_iff.1 hc, rfl⟩

theorem within_edgesAmong : Within states.length (edgesAmong states) := by
  intro e he
  obtain ⟨s, t, hs, het, hsource, htarget⟩ := h.mem_edgesAmong_iff.1 he
  have hlength : states.length = (states.map Prod.fst).length := (List.length_map _).symm
  rw [hsource, htarget, hlength]
  exact ⟨List.idxOf_lt_length_of_mem hs, List.idxOf_lt_length_of_mem (h.target_mem hs het)⟩

theorem sorted_edgesAmong : Sorted (edgesAmong states) := by
  refine List.pairwise_flatMap.2 ⟨fun p _ => ?_, ?_⟩
  · exact List.pairwise_map.2 (p.2.edges.sorted.imp fun hlt => .inr ⟨rfl, hlt⟩)
  · refine (List.pairwise_map.1 (pairwise_idxOf_lt h.nodup)).imp fun hlt e he e' he' => .inl ?_
    obtain ⟨-, -, rfl⟩ := List.mem_map.1 he
    obtain ⟨-, -, rfl⟩ := List.mem_map.1 he'
    exact hlt

theorem nodup_edgesAmong : (edgesAmong states).Nodup := by
  refine h.sorted_edgesAmong.imp ?_
  rintro e _ (hlt | ⟨-, hlt⟩) rfl
  · exact Nat.lt_irrefl _ hlt
  · exact Symbol.lt_irrefl _ hlt

/-- As many states are listed as can be reached. -/
theorem encard_states : {s | a.Reaches root s}.encard = states.length := by
  have hset : {s | a.Reaches root s} = ((states.map Prod.fst).toFinset : Set StateId) := by
    ext s
    simp [← h.mem_iff]
  rw [hset, Set.encard_coe_eq_coe_finsetCard, List.toFinset_card_of_nodup h.nodup, List.length_map]

/-- As many edges are listed as there are between states that can be reached. -/
theorem encard_edges :
    {e : StateId × σ × StateId | a.Reaches root e.1 ∧ a.Edge e.1 e.2.1 e.2.2}.encard =
      (edgesAmong states).length := by
  classical
  have hinj : Set.InjOn (fun e : StateId × σ × StateId => (⟨(states.map Prod.fst).idxOf e.1, e.2.1,
      (states.map Prod.fst).idxOf e.2.2⟩ : Edge σ))
      {e | a.Reaches root e.1 ∧ a.Edge e.1 e.2.1 e.2.2} := by
    rintro ⟨s, c, t⟩ ⟨hs, he⟩ ⟨s', c', t'⟩ ⟨hs', he'⟩ heq
    obtain ⟨hss, rfl, htt⟩ := Edge.mk.inj heq
    have hs := h.mem_iff.2 hs
    obtain rfl : s = s' := (List.idxOf_inj hs).1 hss
    obtain rfl : t = t' := (List.idxOf_inj (h.target_mem hs he)).1 htt
    rfl
  rw [← hinj.encard_image, ← List.toFinset_card_of_nodup h.nodup_edgesAmong,
    ← Set.encard_coe_eq_coe_finsetCard]
  congr 1
  ext e
  rw [List.coe_toFinset, Set.mem_ofPred_eq, h.mem_edgesAmong_iff]
  constructor
  · rintro ⟨⟨s, c, t⟩, ⟨hs, he⟩, rfl⟩
    exact ⟨s, t, h.mem_iff.2 hs, he, rfl, rfl⟩
  · rintro ⟨s, t, hs, hst, hsource, htarget⟩
    obtain ⟨i, c, j⟩ := e
    obtain rfl : i = _ := hsource
    obtain rfl : j = _ := htarget
    exact ⟨(s, c, t), ⟨h.mem_iff.1 hs, hst⟩, rfl⟩

theorem length_eq_ncard : states.length = {s | a.Reaches root s}.ncard := by
  rw [Set.ncard, h.encard_states, ENat.toNat_natCast]

theorem length_edgesAmong_eq_ncard : (edgesAmong states).length =
    {e : StateId × σ × StateId | a.Reaches root e.1 ∧ a.Edge e.1 e.2.1 e.2.2}.ncard := by
  rw [Set.ncard, h.encard_edges, ENat.toNat_natCast]

/-- A word that leads somewhere is shorter than there are states listed. -/
theorem length_lt_of_path (hd : a.Dag root) {w : Word σ} (hp : a.Path root w t) :
    w.length < states.length := by
  rw [h.length_eq_ncard]
  refine hd.length_lt_ncard ?_ hp
  rw [← Set.encard_ne_top_iff, h.encard_states]
  exact ENat.natCast_ne_top _

end Listed

end Dump

namespace Lexicon

open Dump

variable {l : Lexicon σ} {states : List (StateId × State σ)}

/-- What a dump says of a lexicon, by the states in reach. -/
def contentsOf (l : Lexicon σ) (states : List (StateId × State σ)) : Contents σ where
  lifecycle := l.lifecycle
  words := l.size
  longest := l.longest
  frontier := l.automaton.lastWord
  nodes := states.map fun p => ⟨p.2.isFinal, (l.arena.listing p.1).length⟩
  edges := edgesAmong states

/-- A lexicon has a last word only as long as it is active. -/
theorem Valid.lastWord_eq_nil (h : l.Valid) (hl : l.lifecycle ≠ .active) :
    l.automaton.lastWord = [] := by
  rw [lastWord, h.path_eq hl, List.map_nil]

/-- The longest word is shorter than there are states listed. -/
theorem Valid.longest_lt (h : l.Valid) (hs : Listed l.arena l.root states) :
    l.longest < states.length := by
  rcases h.exists_length_eq with ⟨w, ⟨t, x, hp, -⟩, hlength⟩ | ⟨-, hzero⟩
  · rw [← hlength]
    exact hs.length_lt_of_path h.sound.dag_root hp
  · rw [hzero]
    exact hs.length_lt_of_path h.sound.dag_root (.nil l.root)

/-- The numbers of a header fit, but for the number of nodes, if there are not too many states and
edges. -/
theorem Valid.header_fits (h : l.Valid) (hs : Listed l.arena l.root states) {n : Nat}
    (hstates : states.length ≤ range 4) (hedges : (edgesAmong states).length < range 4)
    (hn : n < range 4) : { (l.contentsOf states).header with nodes := n }.Fits where
  words := (by decide : range 8 = countLimit) ▸ h.size_lt
  longest := Nat.lt_of_lt_of_le (h.longest_lt hs) hstates
  nodes := hn
  edges := hedges
  frontier :=
    Nat.lt_of_lt_of_le (hs.length_lt_of_path h.sound.dag_root h.sound.path_lastWord) hstates

/-- **A dump of a valid lexicon comes about**, and says what the graph is. -/
theorem Valid.contents_spec (h : l.Valid) :
    ∃ states n, Listed l.arena l.root states ∧
      l.contents.result = .ok (l.contentsOf states, { l with numbering? := some n }) ∧
      Numbering.compute l.arena l.root = .ok (some n) := by
  obtain ⟨order, horder⟩ := exists_preorder h.sound.dag_root.intact
  have hlive : ∀ s ∈ order, l.arena.isLive s :=
    fun s hs => h.sound.dag_root.intact s ((mem_preorder_iff horder).1 hs)
  obtain ⟨states, hstates, rfl, hget⟩ := exists_mapM_state hlive
  obtain ⟨n, hrun, hcomp, hcount⟩ := h.numbering_spec
  have hlisted : Listed l.arena l.root states := ⟨horder, hget⟩
  refine ⟨states, n, hlisted, ?_, hcomp⟩
  have hnodes : states.map (fun p => (⟨p.2.isFinal, n.count p.1⟩ : Node)) =
      states.map fun p => ⟨p.2.isFinal, (l.arena.listing p.1).length⟩ :=
    List.map_congr_left fun p hp => by
      rw [hcount p.1 (hlisted.mem_iff.1 (List.mem_map_of_mem hp))]
  have hedges : (states.flatMap fun p =>
      edgesOf (positions l.arena.slotCount (states.map Prod.fst)) p.1 p.2) =
      states.flatMap (placedEdges (states.map Prod.fst)) := by
    rw [List.flatMap_def, List.flatMap_def,
      List.map_congr_left fun p hp => hlisted.edgesOf_eq hp]
  have hfrontier : (if l.lifecycle = .active then l.automaton.lastWord else []) =
      l.automaton.lastWord := by
    split
    · rfl
    · next hl => exact (h.lastWord_eq_nil hl).symm
  unfold contents
  simp only [Run.result_bind, horder, hstates, hrun, Run.result_liftM_ok, ok_bind, Run.result_pure,
    hnodes, hedges, hfrontier]
  rfl

/-- A dump lists as many nodes and edges as there are states in reach and edges between them. -/
theorem Valid.ncard_of_lengths (h : l.Valid) {n e : Nat}
    (hlengths : (fun r => (r.1.nodes.length, r.1.edges.length)) <$> l.contents.result = .ok (n, e)) :
    {s | l.arena.Reaches l.root s}.ncard = n ∧
      {e : StateId × σ × StateId |
        l.arena.Reaches l.root e.1 ∧ l.arena.Edge e.1 e.2.1 e.2.2}.ncard = e := by
  obtain ⟨states, m, hs, hcontents, -⟩ := h.contents_spec
  rw [hcontents] at hlengths
  obtain ⟨rfl, rfl⟩ := Prod.mk.inj (Except.ok.inj hlengths)
  refine ⟨?_, hs.length_edgesAmong_eq_ncard.symm⟩
  rw [← hs.length_eq_ncard]
  exact (List.length_map _).symm

/-! ## Writing to where there is too little room -/

/-- Bytes that are sent are all written, or as many as there is room for. -/
theorem send_cases (room : Option Nat) (bs : Bytes) (stop? : Option Stop) :
    send room bs stop? = (bs, stop?) ∨
      ∃ n, room = some n ∧ n < bs.length ∧ send room bs stop? = (bs.take n, some .noRoom) := by
  unfold send
  cases room with
  | none => exact .inl rfl
  | some n =>
    by_cases hn : n < bs.length
    · exact .inr ⟨n, rfl, hn, if_pos hn⟩
    · exact .inl (if_neg hn)

omit [Symbol σ] in
/-- If writing stops for lack of room, as many bytes are written as there is room for. -/
theorem room_eq_of_writeTo [SymbolCode σ] {k : Contents σ} {room : Option Nat}
    (h : (k.writeTo room).2 = some .noRoom) : room = some (k.writeTo room).1.length := by
  have hsend : ∀ bs stop?, stop? ≠ some .noRoom → (send room bs stop?).2 = some .noRoom →
      room = some (send room bs stop?).1.length := by
    intro bs stop? hne hstop
    rcases send_cases room bs stop? with hs | ⟨n, rfl, hlt, hs⟩
    · rw [hs] at hstop
      exact absurd hstop hne
    · rw [hs, List.length_take, Nat.min_eq_left (Nat.le_of_lt hlt)]
  unfold Contents.writeTo at h ⊢
  split at h
  · next hle =>
    rw [if_pos hle]
    exact hsend _ _ (by decide) h
  · next hle =>
    rw [if_neg hle]
    exact hsend _ _ (by decide) h

omit [Symbol σ] in
/-- If writing stops in front of the number of edges, the header cannot tell it. -/
theorem range_le_of_writeTo [SymbolCode σ] {k : Contents σ} {room : Option Nat}
    (h : (k.writeTo room).2 = some .tooManyEdges) : range 4 ≤ k.edges.length := by
  by_contra hle
  rw [Contents.writeTo, if_neg hle] at h
  rcases send_cases room k.bytes none with hs | ⟨n, -, -, hs⟩
  · rw [hs] at h
    cases h
  · rw [hs] at h
    cases h

/-- A dump is written as far as there is room and as its edges can be counted. -/
theorem dumpTo_of_contents [SymbolCode σ] {k : Contents σ} {m : Lexicon σ} (room : Option Nat)
    (h : l.contents.result = .ok (k, m)) :
    (l.dumpTo room).result = .ok ((k.writeTo room).1, (k.writeTo room).2, m) := by
  unfold dumpTo
  simp only [Run.result_bind, h, ok_bind]
  split
  · simp only [Run.result_bind, Run.result_note, ok_bind, Run.result_pure]
  · rfl

/-- A dump is the writing of what it says, if its edges can be counted. -/
theorem dump_of_contents [SymbolCode σ] {k : Contents σ} {m : Lexicon σ}
    (h : l.contents.result = .ok (k, m)) :
    l.dump.result =
      if range 4 ≤ k.edges.length then .error (.fault .tooManyEdges) else .ok (k.bytes, m) := by
  unfold dump
  simp only [Run.result_bind, dumpTo_of_contents none h, ok_bind, Contents.writeTo, send]
  split
  · rfl
  · rfl

end Lexicon

end WordGraph
