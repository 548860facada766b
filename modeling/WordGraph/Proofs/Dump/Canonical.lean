import Mathlib
import WordGraph.Proofs.Lexicon.Building
import WordGraph.Proofs.Lexicon.Resume

/-!
# One dump for each lexicon

A load leaves no choice in how a lexicon is written. The checks compare what is said of the nodes and
of the whole with the graph, and they insist on the order of a first visit for the nodes and on the
order of the sources and symbols for the edges; all this is what a dump of the loaded lexicon writes.
So the bytes come back, and two lexicons have the same dump just if nobody can tell them apart.

* `Checked.nodes_eq`, `Checked.edges_eq` — a checked graph has one writing
* `contentsOf_of_ofContents` — a loaded lexicon says of itself what was loaded
* `Restored`, `restored_of_load` — its dump are the bytes that it was loaded from
* `Dumpable`, `Reachable.dump_eq_iff` — which lexicons have the same dump
-/

namespace WordGraph

open Arena Automaton

variable {σ : Type} [Symbol σ]

namespace Dump

variable {a : Arena σ} {s : StateId} {order : List StateId} {k : Contents σ} {n : Numbering}
  {path : List (σ × StateId)} {register : Register σ} {states : List (StateId × State σ)}
  {edges edges' : List (Edge σ)}

/-- Two lists of edges in order with the same members are the same. -/
theorem Sorted.eq_of_mem_iff (h : Sorted edges) (h' : Sorted edges')
    (hm : ∀ e, e ∈ edges ↔ e ∈ edges') : edges = edges' := by
  have hasymm : ∀ e e' : Edge σ, Before e e' → ¬Before e' e := by
    rintro e e' (hlt | ⟨heq, hlt⟩) (hlt' | ⟨heq', hlt'⟩)
    · exact Nat.lt_asymm hlt hlt'
    · exact Nat.ne_of_lt hlt heq'.symm
    · exact Nat.ne_of_lt hlt' heq.symm
    · exact Symbol.not_lt_of_lt hlt hlt'
  have : Std.Irrefl fun e e' : Edge σ => Before e e' := ⟨fun e hb => hasymm e e hb hb⟩
  have : Std.Antisymm fun e e' : Edge σ => Before e e' :=
    ⟨fun e e' hb hb' => absurd hb' (hasymm e e' hb)⟩
  exact List.Pairwise.eq_of_mem_iff h h' hm

theorem idxOf_slotsOf (hs : s.slot < a.slotCount) : (slotsOf a).idxOf s = s.slot := by
  have hlength : s.slot < (slotsOf a).length := by simpa [slotsOf] using hs
  have hnd : (slotsOf a).Nodup :=
    List.nodup_range.map fun _ _ he => StateId.mk.inj he
  have hget : (slotsOf a)[s.slot] = s := by simp [slotsOf]
  have := hnd.idxOf_getElem s.slot hlength
  rwa [hget] at this

namespace Checked

variable (h : Checked k a order n path register) (hs : Listed a ⟨0⟩ states)

include h hs

/-- The states of a checked graph are listed by their slots. -/
theorem map_fst_listed : states.map Prod.fst = slotsOf a := by
  have heq := (checkGraph_eq_ok_iff.1 h.graph).2
  rw [hs.preorder_eq] at heq
  exact Except.ok.inj heq

/-- The nodes are what the graph makes of them. -/
theorem nodes_eq :
    (states.map fun p => (⟨p.2.isFinal, (a.listing p.1).length⟩ : Node)) = k.nodes := by
  have hfst := h.map_fst_listed hs
  have hlength : states.length = k.nodes.length := by
    rw [← List.length_map (f := Prod.fst), hfst, ← h.described.slotCount_eq]
    simp [slotsOf]
  refine List.ext_getElem (by rw [List.length_map, hlength]) fun i hi hi' => ?_
  rw [List.length_map] at hi
  have hstate : states[i].1 = ⟨i⟩ := by
    have : (states.map Prod.fst).get ⟨i, by rwa [List.length_map]⟩ = ⟨i⟩ := by
      simp [hfst, slotsOf]
    simpa using this
  have hget := h.described.end_iff (s := ⟨i⟩)
  have hx := hs.get? states[i] (List.getElem_mem hi)
  rw [hstate] at hx
  obtain ⟨hcount, -⟩ := checkCounts_eq_ok_iff.1 h.counts i k.nodes[i]
    (List.getElem?_eq_getElem hi')
  rw [Nat.zero_add, h.counted.count_spec.2 _ (h.reaches (isLive_of_get? hx))] at hcount
  rw [accepts_nil_iff_of_get? hx, List.getElem?_eq_getElem hi'] at hget
  have hfinal : states[i].2.isFinal = k.nodes[i].isFinal := by
    rw [Bool.eq_iff_iff, hget]
    simp
  rw [List.getElem_map, hstate, hcount, hfinal]

/-- The edges are those of the graph. -/
theorem edges_eq (hsorted : Sorted k.edges) : edgesAmong states = k.edges := by
  refine hs.sorted_edgesAmong.eq_of_mem_iff hsorted fun e => ?_
  rw [hs.mem_edgesAmong_iff, h.map_fst_listed hs]
  constructor
  · rintro ⟨s, t, hmem, he, hsource, htarget⟩
    have ht := h.described.edge_live h.within he
    rw [h.isLive_iff] at ht
    rw [idxOf_slotsOf (mem_slotsOf_iff.1 hmem)] at hsource
    rw [idxOf_slotsOf ht] at htarget
    have := h.described.edge_iff.1 he
    rwa [← hsource, ← htarget] at this
  · intro he
    obtain ⟨hsource, htarget⟩ := h.within e he
    rw [← h.described.slotCount_eq] at hsource htarget
    exact ⟨⟨e.source⟩, ⟨e.target⟩, mem_slotsOf_iff.2 hsource, h.described.edge_iff.2 he,
      (idxOf_slotsOf (s := ⟨e.source⟩) hsource).symm, (idxOf_slotsOf (s := ⟨e.target⟩) htarget).symm⟩

omit hs in
/-- The path spells the stored last word. -/
theorem map_fst_path (hfrontier : k.lifecycle ≠ .active → k.frontier = []) :
    path.map Prod.fst = k.frontier := by
  by_cases hlife : k.lifecycle = .active
  · have hpath := path_eq_ok_iff.1 h.spelled
    rw [hlife] at hpath
    exact hpath.1
  · rw [h.path_eq_nil hlife, hfrontier hlife]
    rfl

end Checked

end Dump

namespace Lexicon

open Dump

variable {l l' : Lexicon σ} {k : Contents σ} {identity : Nat} {bs : Bytes}
  {states : List (StateId × State σ)}

/-- **A loaded lexicon says of itself what was loaded.** -/
theorem contentsOf_of_ofContents (hk : k.WellFormed) (h : (ofContents identity k).result = .ok l)
    (hs : Listed l.arena l.root states) : l.contentsOf states = k := by
  obtain ⟨a, order, n, lengths, path, register, ha, hgraph, hn, hcounts, hwords, hlengths, hlong,
    hpath, hreg, rfl⟩ := ofContents_eq_ok_iff.1 h
  obtain ⟨a', ha', hd⟩ := exists_arena hk.within hk.sorted
  rw [ha] at ha'
  cases ha'
  have hc : Checked k a order n path register :=
    ⟨⟨hk.within, hd, hgraph, hpath⟩, hn, hcounts, hreg⟩
  have hnodes := hc.nodes_eq hs
  have hedges := hc.edges_eq hs hk.sorted
  have hlast := hc.map_fst_path hk.frontier_eq
  obtain ⟨lifecycle, words, longest, frontier, nodes, edges⟩ := k
  simp only at hnodes hedges hlast
  simp [contentsOf, ofAutomaton, lastWord, hnodes, hedges, hlast]

/-- The last word of a loaded lexicon is the one that was loaded. -/
theorem lastWord_of_ofContents (hk : k.WellFormed) (h : (ofContents identity k).result = .ok l) :
    l.automaton.lastWord = k.frontier := by
  obtain ⟨states, n, hs, -⟩ := (valid_of_ofContents hk.within hk.sorted h).contents_spec
  exact congrArg Contents.frontier (contentsOf_of_ofContents hk h hs)

/-! ## Loading and dumping again -/

section

variable [SymbolCode σ] {bs : Bytes}

/-- A lexicon is the one that some bytes are the dump of. -/
structure Restored (bs : Bytes) (l : Lexicon σ) : Prop where
  dump_eq : ∃ m, l.dump.result = .ok (bs, m)
  size_eq : {w | l.Holds w}.encard = l.size
  length_le : ∀ w, l.Holds w → w.length ≤ l.longest
  /-- The length of the longest word is 0 if there is no word. -/
  longest_eq : (∃ w, l.Holds w ∧ w.length = l.longest) ∨ (∀ w, ¬l.Holds w) ∧ l.longest = 0
  /-- The last word of an active lexicon is the one that the bytes have, and it is a word of the
  lexicon. -/
  lastWord_eq : l.lifecycle = .active → ∃ k : Contents σ, Contents.ofBytes bs = .ok k ∧
    k.bytes = bs ∧ l.automaton.lastWord = k.frontier ∧ l.Holds l.automaton.lastWord

theorem dump_of_ofContents (hk : k.WellFormed) (h : (ofContents identity k).result = .ok l) :
    ∃ m, l.dump.result = .ok (k.bytes, m) := by
  obtain ⟨states, n, hs, hcontents, -⟩ :=
    (valid_of_ofContents hk.within hk.sorted h).contents_spec
  rw [contentsOf_of_ofContents hk h hs] at hcontents
  have hedges : ¬range 4 ≤ k.edges.length := Nat.not_le_of_lt hk.header.edges
  rw [dump_of_contents hcontents, if_neg hedges]
  exact ⟨_, rfl⟩

/-- **A lexicon that is loaded is dumped as the bytes it was loaded from**, and what they say of it is
right. -/
theorem restored_of_load (h : (load identity bs).result = .ok l) : Restored bs l := by
  obtain ⟨k, hk, hwf, rfl, hl⟩ := exists_contents_of_load h
  have hvalid := valid_of_load h
  refine ⟨dump_of_ofContents hwf hl, hvalid.encard_holds, fun w hw => hvalid.length_le hw,
    hvalid.exists_length_eq, fun hlife => ?_⟩
  exact ⟨k, hk, rfl, lastWord_of_ofContents hwf hl, hvalid.holds_lastWord hlife⟩

/-- The dump of an active lexicon with the words 1 3 and 2 3, of which the first was added last, is
loaded. -/
theorem restored_of_two_words :
    let bs : Bytes := [0x44, 0x41, 0x57, 0x47, 1, 1, 1, 0, 2, 0, 0, 0, 0, 0, 0, 0, 2, 0, 0, 0, 5, 0, 0,
      0, 4, 0, 0, 0, 2, 0, 0, 0, 1, 3, 0, 2, 0, 0, 0, 0, 0, 0, 0, 0, 1, 0, 0, 0, 0, 0, 0, 0, 1, 1, 0, 0,
      0, 0, 0, 0, 0, 0, 1, 0, 0, 0, 0, 0, 0, 0, 1, 1, 0, 0, 0, 0, 0, 0, 0, 0, 0, 0, 0, 1, 1, 0, 0, 0, 0,
      0, 0, 0, 2, 3, 0, 0, 0, 1, 0, 0, 0, 3, 2, 0, 0, 0, 3, 0, 0, 0, 3, 4, 0, 0, 0]
    ∃ l : Lexicon UInt8, (load 0 bs).result = .ok l ∧ l.lifecycle = .active ∧ Restored bs l := by
  intro bs
  have hlife : Lexicon.lifecycle <$> (load (σ := UInt8) 0 bs).result = .ok .active := by cbv
  obtain ⟨l, hload, hl⟩ := map_eq_ok_iff.1 hlife
  exact ⟨l, hload, hl, restored_of_load hload⟩

end

/-! ## Dumps of different lexicons -/

/-- A dump can count the states in reach, their edges and the words of a lexicon. -/
structure Dumpable (l : Lexicon σ) : Prop where
  states : {s | l.arena.Reaches l.root s}.ncard < 2 ^ 32
  edges : {e : StateId × σ × StateId |
    l.arena.Reaches l.root e.1 ∧ l.arena.Edge e.1 e.2.1 e.2.2}.ncard < 2 ^ 32
  words : {w | l.Holds w}.encard < 2 ^ 64

/-- The words of a valid lexicon can be counted. -/
theorem Valid.encard_holds_lt (h : l.Valid) : {w | l.Holds w}.encard < 2 ^ 64 := by
  rw [h.encard_holds]
  exact_mod_cast h.size_lt

/-- A valid lexicon is dumpable if what it says of itself is short enough. -/
theorem Valid.dumpable_iff (h : l.Valid) (hs : Listed l.arena l.root states) :
    l.Dumpable ↔ (l.contentsOf states).nodes.length < 2 ^ 32 ∧
      (l.contentsOf states).edges.length < 2 ^ 32 := by
  have hnodes : (l.contentsOf states).nodes.length = {s | l.arena.Reaches l.root s}.ncard := by
    rw [length_nodes, List.length_map, hs.length_eq_ncard]
  rw [hnodes, show (l.contentsOf states).edges = edgesAmong states from rfl,
    hs.length_edgesAmong_eq_ncard]
  exact ⟨fun hd => ⟨hd.states, hd.edges⟩, fun hd => ⟨hd.1, hd.2, h.encard_holds_lt⟩⟩

theorem Valid.dumpable_of_lengths (h : l.Valid) {n e : Nat}
    (hlengths : (fun r => (r.1.nodes.length, r.1.edges.length)) <$> l.contents.result = .ok (n, e))
    (hn : n < 2 ^ 32) (he : e < 2 ^ 32) : l.Dumpable := by
  obtain ⟨rfl, rfl⟩ := h.ncard_of_lengths hlengths
  exact ⟨hn, he, h.encard_holds_lt⟩

/-- A lexicon that cannot be told from a dumpable one is dumpable. -/
theorem Alike.dumpable (h : Alike l l') (hd : l.Dumpable) : l'.Dumpable := by
  obtain ⟨states, n, hs, -⟩ := h.valid.contents_spec
  obtain ⟨states', n', hs', -⟩ := h.valid'.contents_spec
  rwa [h.valid'.dumpable_iff hs', ← h.contentsOf_eq hs hs', ← h.valid.dumpable_iff hs]

variable [SymbolCode σ]

/-- **Two lexicons have the same dump just if they are at the same point of their lives, have the same
words and, as long as words can be added, the same last word**, whatever has led to them. -/
theorem Reachable.dump_eq_iff (h : Reachable l) (h' : Reachable l') (hd : l.Dumpable)
    (hd' : l'.Dumpable) :
    ∃ bs m bs' m', l.dump.result = .ok (bs, m) ∧ l'.dump.result = .ok (bs', m') ∧
      (bs = bs' ↔ l.lifecycle = l'.lifecycle ∧ (∀ w, l.Holds w ↔ l'.Holds w) ∧
        (l.lifecycle = .active → l.automaton.lastWord = l'.automaton.lastWord)) := by
  obtain ⟨bs, n, k, hdump, -, hload, halike⟩ := h.valid.exists_load hd.states hd.edges 0
  obtain ⟨bs', n', k', hdump', -, hload', halike'⟩ := h'.valid.exists_load hd'.states hd'.edges 0
  refine ⟨bs, _, bs', _, hdump, hdump', ?_, ?_⟩
  · rintro rfl
    rw [hload] at hload'
    cases hload'
    have hboth := halike.trans halike'.symm
    exact ⟨hboth.lifecycle_eq, hboth.holds_iff, fun _ => hboth.lastWord_eq⟩
  · rintro ⟨hlife, hholds, hlast⟩
    have hlastWord : l.automaton.lastWord = l'.automaton.lastWord := by
      by_cases hl : l.lifecycle = .active
      · exact hlast hl
      · rw [h.valid.lastWord_eq_nil hl, h'.valid.lastWord_eq_nil (hlife ▸ hl)]
    have halike : Alike l l' := ⟨h.valid, h'.valid, hlife, hlastWord, hholds⟩
    have hsame := halike.agree.dump_eq
    rw [hdump, hdump'] at hsame
    exact Except.ok.inj hsame

/-- The words 1 3 and 2 3 are added in one order, and in the other one with the first word again at
the end, which leaves a state out of reach. Either way the last word is the first. -/
theorem dump_eq_iff_of_two_words :
    let l : Lexicon UInt8 := (new 0).after [.addUnchecked [2, 3], .addUnchecked [1, 3]]
    let l' : Lexicon UInt8 :=
      (new 1).after [.add [1, 3], .add [2, 3], .number, .addUnchecked [1, 3]]
    ∃ bs m bs' m', l.dump.result = .ok (bs, m) ∧ l'.dump.result = .ok (bs', m') ∧
      (bs = bs' ↔ l.lifecycle = l'.lifecycle ∧ (∀ w, l.Holds w ↔ l'.Holds w) ∧
        (l.lifecycle = .active → l.automaton.lastWord = l'.automaton.lastWord)) := by
  have hlengths : (fun r => (r.1.nodes.length, r.1.edges.length)) <$> ((new 0 : Lexicon UInt8).after
      [.addUnchecked [2, 3], .addUnchecked [1, 3]]).contents.result = .ok (5, 4) := by cbv
  have hlengths' : (fun r => (r.1.nodes.length, r.1.edges.length)) <$> ((new 1 : Lexicon UInt8).after
      [.add [1, 3], .add [2, 3], .number, .addUnchecked [1, 3]]).contents.result = .ok (5, 4) := by
    cbv
  have h := Reachable.after (.new (σ := UInt8) 0) [.addUnchecked [2, 3], .addUnchecked [1, 3]]
  have h' := Reachable.after (.new (σ := UInt8) 1)
    [.add [1, 3], .add [2, 3], .number, .addUnchecked [1, 3]]
  exact Reachable.dump_eq_iff h h'
    (h.valid.dumpable_of_lengths hlengths (by decide) (by decide))
    (h'.valid.dumpable_of_lengths hlengths' (by decide) (by decide))

end Lexicon

end WordGraph
