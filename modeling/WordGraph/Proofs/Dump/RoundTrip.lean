import WordGraph.Proofs.Dump.Load
import WordGraph.Proofs.Dump.Write
import WordGraph.Proofs.Lexicon.Alike

/-!
# Dumps are loaded

The arena that a dump describes is a copy of what is in reach: the state at a place of the order of a
first visit is copied to the slot with that number. What holds of the states in reach holds of their
copies, so a dump passes every check of a load, and the lexicon that is loaded cannot be told apart
from the one that was dumped.

* `Copied` — a state and the slot that it is copied to
* `Listed.matching` — states correspond to their copies
* `Valid.exists_ofContents` — what a dump says is loaded
* `Valid.exists_load` — so is a dump, within the bounds of its numbers
-/

namespace WordGraph

open Arena Automaton

variable {σ : Type} [Symbol σ]

namespace Dump

/-- The slot that a listed state is copied to. -/
def copy (order : List StateId) (s : StateId) : StateId := ⟨order.idxOf s⟩

/-- A listed state and the slot that it is copied to. -/
def Copied (order : List StateId) (s s' : StateId) : Prop := s ∈ order ∧ s' = copy order s

/-- The path that a path is copied to. -/
def copyPath (order : List StateId) (p : List (σ × StateId)) : List (σ × StateId) :=
  p.map fun e => (e.1, copy order e.2)

omit [Symbol σ] in
theorem links_copyPath (order : List StateId) (s : StateId) (p : List (σ × StateId)) :
    links (copy order s) (copyPath order p) =
      (links s p).map fun e => (copy order e.1, e.2.1, copy order e.2.2) := by
  induction p generalizing s with
  | nil => rfl
  | cons e p ih => exact congrArg (_ :: ·) (ih e.2)

omit [Symbol σ] in
theorem endOf_copyPath (order : List StateId) (s : StateId) (p : List (σ × StateId)) :
    endOf (copy order s) (copyPath order p) = copy order (endOf s p) := by
  induction p generalizing s with
  | nil => rfl
  | cons e p ih => rw [copyPath, List.map_cons, endOf_cons, ← copyPath, ih, endOf_cons]

variable {l : Lexicon σ} {states : List (StateId × State σ)} {a : Arena σ} {s s' t t' : StateId}
  {c : σ} {w : Word σ} {x : State σ}

/-! ## The copy of what is in reach -/

/-- A listed state stands at its place with its content. -/
theorem Listed.getElem?_idxOf {root : StateId} (h : Listed a root states)
    (hs : s ∈ states.map Prod.fst) (hx : a.get? s = some x) :
    states[(states.map Prod.fst).idxOf s]? = some (s, x) := by
  have hplace := List.getElem?_idxOf hs
  rw [List.getElem?_map, Option.map_eq_some_iff] at hplace
  obtain ⟨p, hp, rfl⟩ := hplace
  have hget := h.get? p (List.mem_of_getElem? hp)
  rw [hx] at hget
  cases hget
  exact hp

section

variable (h : l.Valid) (hs : Listed l.arena l.root states)
  (hd : Described (l.contentsOf states).nodes (l.contentsOf states).edges a)

theorem length_nodes : (l.contentsOf states).nodes.length = (states.map Prod.fst).length := by
  simp [Lexicon.contentsOf]

include hs in
theorem getElem?_nodes (hm : s ∈ states.map Prod.fst) (hx : l.arena.get? s = some x) :
    (l.contentsOf states).nodes[(copy (states.map Prod.fst) s).slot]? =
      some ⟨x.isFinal, (l.arena.listing s).length⟩ := by
  simp [Lexicon.contentsOf, copy, hs.getElem?_idxOf hm hx]

include hs in
theorem copied_root : Copied (states.map Prod.fst) l.root ⟨0⟩ := by
  obtain ⟨rest, hrest⟩ := exists_preorder_eq_cons hs.preorder_eq
  rw [hrest, Copied, copy, List.idxOf_cons_self]
  exact ⟨List.mem_cons_self .., rfl⟩

include hs hd

/-- The edges of a copy are the copies of the edges. -/
theorem edge_copy_iff (hss : Copied (states.map Prod.fst) s s') :
    a.Edge s' c t' ↔ ∃ t, l.arena.Edge s c t ∧ Copied (states.map Prod.fst) t t' := by
  obtain ⟨hm, rfl⟩ := hss
  rw [hd.edge_iff, Lexicon.contentsOf, hs.mem_edgesAmong_iff]
  constructor
  · rintro ⟨u, t, hu, he, hsource, htarget⟩
    obtain rfl := (List.idxOf_inj hm).1 hsource
    refine ⟨t, he, hs.target_mem hm he, ?_⟩
    obtain ⟨j⟩ := t'
    exact congrArg StateId.mk htarget
  · rintro ⟨t, he, -, rfl⟩
    exact ⟨s, t, hm, he, rfl, rfl⟩

/-- **States correspond to their copies.** -/
theorem matching_copies : Matching l.arena a (Copied (states.map Prod.fst)) where
  state := by
    intro s s' hss
    obtain ⟨p, hp, hps⟩ := List.mem_map.1 hss.1
    have hx := hs.get? p hp
    rw [hps] at hx
    have hlive : a.isLive s' := by
      rw [hd.isLive_iff, length_nodes, hss.2]
      exact List.idxOf_lt_length_of_mem hss.1
    obtain ⟨x', hx'⟩ := isLive_iff.1 hlive
    refine ⟨p.2, x', hx, hx', ?_, forall₂_of_symbols (fun c => ?_) fun {c t t'} he he' => ?_⟩
    · rw [Bool.eq_iff_iff, ← accepts_nil_iff_of_get? hx', hd.end_iff, hss.2,
        getElem?_nodes hs hss.1 hx]
      simp
    · simp only [← edge_iff_mem hx, ← edge_iff_mem hx', edge_copy_iff hs hd hss]
      constructor
      · exact fun ⟨t, he⟩ => ⟨_, t, he, hs.target_mem hss.1 he, rfl⟩
      · exact fun ⟨_, t, he, _⟩ => ⟨t, he⟩
    · rw [← edge_iff_mem hx] at he
      rw [← edge_iff_mem hx', edge_copy_iff hs hd hss] at he'
      obtain ⟨u, hu, htt⟩ := he'
      rwa [he.unique hu]
  left_unique := by
    rintro s t s' ⟨hm, rfl⟩ ⟨hm', heq⟩
    exact (List.idxOf_inj hm).1 (StateId.mk.inj heq)
  right_unique := by
    rintro s s' t' ⟨-, rfl⟩ ⟨-, rfl⟩
    rfl

/-- Every state of the copy is the copy of a state. -/
theorem exists_copied (hlive : a.isLive s') : ∃ s, Copied (states.map Prod.fst) s s' := by
  have hlt := hd.isLive_iff.1 hlive
  rw [length_nodes] at hlt
  refine ⟨(states.map Prod.fst)[s'.slot], List.getElem_mem hlt, ?_⟩
  rw [copy, hs.nodup.idxOf_getElem _ hlt]

/-- The copy is searched in the order of its slots. -/
theorem preorder_copy : a.preorder ⟨0⟩ = .ok (slotsOf a) := by
  obtain ⟨order, horder, hall⟩ := (matching_copies hs hd).preorder (copied_root hs) hs.preorder_eq
  have hcopies : order = (states.map Prod.fst).map (copy (states.map Prod.fst)) := by
    have hmap := map_eq_of_forall₂ (g := fun s' => s') hall fun s _ s' _ hss => hss.2.symm
    rw [hmap, List.map_id']
  have hplaces : (states.map Prod.fst).map (states.map Prod.fst).idxOf =
      List.range (states.map Prod.fst).length := by
    refine List.ext_getElem (by simp) fun i hi _ => ?_
    rw [List.getElem_map, List.getElem_range]
    exact hs.nodup.idxOf_getElem i (by simpa using hi)
  rw [horder, hcopies, slotsOf, hd.slotCount_eq, length_nodes, ← hplaces]
  simp only [List.map_map]
  rfl

/-- All of the copy is in reach. -/
theorem reaches_copy (hlive : a.isLive s') : a.Reaches ⟨0⟩ s' := by
  obtain ⟨x, hx⟩ := isLive_iff.1 hlive
  exact (mem_preorder_iff (preorder_copy hs hd)).1 (mem_slotsOf_iff.2 (slot_lt_of_get? hx))

include h

theorem dag_copy : a.Dag ⟨0⟩ :=
  (matching_copies hs hd).dag (copied_root hs) h.sound.dag_root

/-- From a copy the same words are accepted. -/
theorem listing_copy (hss : Copied (states.map Prod.fst) s s') :
    l.arena.listing s = a.listing s' := by
  have hreach := hs.mem_iff.1 hss.1
  refine listing_congr (h.sound.dag_root.of_reaches hreach) ?_ fun w =>
    (matching_copies hs hd).accepts_iff hss
  exact (matching_copies hs hd).dag hss (h.sound.dag_root.of_reaches hreach)

/-! ## The checks -/

/-- The counts of the copy are those that the dump says. -/
theorem checkCounts_copy {n : Numbering}
    (hn : ∀ s', a.Reaches ⟨0⟩ s' → n.count s' = (a.listing s').length) :
    checkCounts n 0 (l.contentsOf states).nodes = .ok () := by
  refine checkCounts_eq_ok_iff.2 fun j node hj => ?_
  rw [Nat.zero_add]
  have hlive : a.isLive ⟨j⟩ := hd.isLive_iff.2 (List.getElem?_eq_some_iff.1 hj).1
  obtain ⟨s, hss⟩ := exists_copied hs hd hlive
  obtain ⟨p, hp, rfl⟩ := List.mem_map.1 hss.1
  have hnode := getElem?_nodes hs hss.1 (hs.get? p hp)
  have hplace : j = (copy (states.map Prod.fst) p.1).slot := congrArg StateId.slot hss.2
  rw [← hplace, hj] at hnode
  cases hnode
  refine ⟨?_, fun hzero => ?_⟩
  · rw [hn _ (reaches_copy hs hd hlive), listing_copy h hs hd hss]
  -- only the start state may accept nothing
  · have hroot : p.1 = l.root := by
      by_contra hne
      have hreach := hs.mem_iff.1 hss.1
      obtain ⟨w, hw⟩ := h.sound.exists_accepts h.productive (h.sound.dag_root.intact _ hreach) hne
      rw [← mem_listing_iff (h.sound.dag_root.of_reaches hreach),
        List.length_eq_zero_iff.1 hzero] at hw
      cases hw
    rw [hroot] at hss
    exact congrArg StateId.slot ((matching_copies hs hd).right_unique hss (copied_root hs))

omit hd in
theorem copied_of_mem_pathStates (hm : s ∈ l.automaton.pathStates) :
    Copied (states.map Prod.fst) s (copy (states.map Prod.fst) s) :=
  ⟨hs.mem_iff.2 (h.sound.reaches_of_mem_pathStates hm), rfl⟩

/-! ## The path of the last word -/

omit hd in
/-- One edge of the dump leads to a state on the path. -/
theorem inDegree_copy (ht : t ∈ l.automaton.path.map Prod.snd) :
    inDegree (l.contentsOf states).edges (copy (states.map Prod.fst) t) = 1 := by
  obtain ⟨⟨s, c, u⟩, hlink, rfl⟩ := exists_link l.root ht
  have hu : u ∈ l.automaton.pathStates := List.mem_cons_of_mem _ ht
  have hsource : s ∈ l.automaton.pathStates := source_mem_of_links hlink
  have hplace := (copied_of_mem_pathStates h hs hu).1
  rw [inDegree, List.countP_eq_length_filter]
  show _ = ([⟨(states.map Prod.fst).idxOf s, c, (states.map Prod.fst).idxOf u⟩] :
    List (Edge σ)).length
  refine List.Perm.length_eq ((List.perm_ext_iff_of_nodup (hs.nodup_edgesAmong.filter _)
    (List.nodup_singleton _)).2 fun e => ?_)
  rw [List.mem_filter, List.mem_singleton, decide_eq_true_eq]
  constructor
  · rintro ⟨he, htarget⟩
    obtain ⟨s', t', hs', hedge, hsrc, htgt⟩ := hs.mem_edgesAmong_iff.1 he
    obtain rfl := (List.idxOf_inj hplace).1 (htarget.symm.trans htgt)
    have hlink' := (h.sound.edge_iff hu).1 hedge
    obtain ⟨rank, hr⟩ := h.sound.ranked
    have hsame := source_unique_of_links hr h.sound.forall_links hlink' hlink
    obtain ⟨i, d, j⟩ := e
    obtain ⟨rfl, rfl⟩ := Prod.mk.inj hsame
    obtain rfl : i = _ := hsrc
    obtain rfl : j = _ := htgt
    rfl
  · rintro rfl
    exact ⟨hs.mem_edgesAmong_iff.2 ⟨s, u, (copied_of_mem_pathStates h hs hsource).1,
      h.sound.edge_of_links hlink, rfl, rfl⟩, rfl⟩

omit hd in
/-- An empty lexicon has one state in reach, and no edges. -/
theorem states_eq_of_empty (hl : l.lifecycle = .empty) :
    states.map Prod.fst = [l.root] ∧ edgesAmong states = [] := by
  have hroot : ∀ {c t}, ¬l.arena.Edge l.root c t := by
    intro c t he
    obtain ⟨w, hw⟩ := h.exists_accepts_of_edge he
    exact h.no_words hl (c :: w) (he.accepts_cons_iff.2 hw)
  have hreach : ∀ s, l.arena.Reaches l.root s → s = l.root := by
    rintro s ⟨_ | ⟨c, w⟩, hp⟩
    · exact (path_nil_iff.1 hp).symm
    · obtain ⟨t, he, -⟩ := path_cons_iff_edge.1 hp
      exact absurd he hroot
  refine ⟨?_, List.eq_nil_iff_forall_not_mem.2 fun e he => ?_⟩
  · obtain ⟨rest, hrest⟩ := exists_preorder_eq_cons hs.preorder_eq
    have hnd := hs.nodup
    rw [hrest, List.nodup_cons] at hnd
    rw [hrest]
    cases rest with
    | nil => rfl
    | cons s rest =>
      have hs' : s = l.root := hreach s (hs.mem_iff.1 (by simp [hrest]))
      exact absurd (hs' ▸ List.mem_cons_self ..) hnd.1
  · obtain ⟨s, t, hm, hedge, -⟩ := hs.mem_edgesAmong_iff.1 he
    rw [hreach s (hs.mem_iff.1 hm)] at hedge
    exact hroot hedge

/-- **The last word of the dump spells the copy of its path.** -/
theorem path_copy : (l.contentsOf states).path a =
    .ok (copyPath (states.map Prod.fst) l.automaton.path) := by
  have hroot : copy (states.map Prod.fst) l.root = ⟨0⟩ := (copied_root hs).2.symm
  have hnone : l.lifecycle ≠ .active → copyPath (states.map Prod.fst) l.automaton.path = [] := by
    intro hl
    rw [h.path_eq hl]
    rfl
  rw [path_eq_ok_iff]
  have hlife : (l.contentsOf states).lifecycle = l.lifecycle := rfl
  rw [hlife]
  cases hl : l.lifecycle with
  | empty =>
    obtain ⟨horder, hedges⟩ := states_eq_of_empty h hs hl
    refine ⟨hnone (by rw [hl]; decide), ?_, hedges, (dag_copy h hs hd).isLive, ?_⟩
    · rw [length_nodes, horder]
      rfl
    · rw [← (matching_copies hs hd).accepts_iff (copied_root hs)]
      exact h.no_words hl []
  | active =>
    refine ⟨by simp [copyPath, Lexicon.contentsOf, lastWord], ?_, ?_, ?_⟩
    · rw [← hroot, links_copyPath]
      intro e he
      obtain ⟨⟨s, c, t⟩, hlink, rfl⟩ := List.mem_map.1 he
      have hsource := copied_of_mem_pathStates h hs (source_mem_of_links hlink)
      obtain ⟨t', he', htt⟩ := (matching_copies hs hd).edge hsource (h.sound.edge_of_links hlink)
      exact htt.2 ▸ he'
    · intro t' ht'
      obtain ⟨e', he', rfl⟩ := List.mem_map.1 ht'
      obtain ⟨e, he, rfl⟩ := List.mem_map.1 he'
      exact inDegree_copy h hs (List.mem_map_of_mem he)
    · rw [← hroot, endOf_copyPath, ← (matching_copies hs hd).accepts_iff
        (copied_of_mem_pathStates h hs (endOf_mem_pathStates l.automaton)), accepts_nil_iff]
      exact h.end_final hl
  | closed => exact hnone (by rw [hl]; decide)

/-! ## The register -/

/-- The copies that are set apart are those of the states on the path, as long as words can be
added. -/
theorem mem_setApart_iff (hss : Copied (states.map Prod.fst) s s') :
    s' ∈ (l.contentsOf states).setApart (copyPath (states.map Prod.fst) l.automaton.path) ↔
      l.lifecycle ≠ .closed ∧ s ∈ l.automaton.pathStates := by
  have hcopy : ∀ {t t'}, t ∈ l.automaton.pathStates → Copied (states.map Prod.fst) t t' →
      (s' = t' ↔ s = t) := by
    intro t t' ht htt
    constructor
    · rintro rfl
      exact (matching_copies hs hd).left_unique hss htt
    · rintro rfl
      exact (matching_copies hs hd).right_unique hss htt
  have hpath : s' ∈ (copyPath (states.map Prod.fst) l.automaton.path).map Prod.snd ↔
      s ∈ l.automaton.path.map Prod.snd := by
    simp only [copyPath, List.map_map, List.mem_map, Function.comp_apply]
    refine exists_congr fun e => and_congr_right fun he => ?_
    have ht := List.mem_cons_of_mem l.root (List.mem_map_of_mem (f := Prod.snd) he)
    rw [eq_comm, hcopy ht (copied_of_mem_pathStates h hs ht), eq_comm]
  rw [Contents.setApart, List.mem_append, hpath]
  show _ ∨ s' ∈ (if l.lifecycle = .closed then [] else [⟨0⟩]) ↔ _
  by_cases hl : l.lifecycle = .closed
  · have hnil := h.path_eq (by rw [hl]; decide)
    simp [hl, hnil]
  · rw [if_neg hl, and_iff_right hl, List.mem_singleton, hcopy (root_mem_pathStates _)
      (copied_root hs), pathStates, List.mem_cons, or_comm]

/-- **The copies that are not set apart are registered.** -/
theorem exists_registerAll_copy {order : List StateId} (htop : a.Topological ⟨0⟩ order) :
    ∃ r, registerAll a (marked a.slotCount ((l.contentsOf states).setApart
      (copyPath (states.map Prod.fst) l.automaton.path))) order = .ok r := by
  have hmatch := matching_copies hs hd
  have hlive : ∀ {t}, t ∈ order → a.isLive t := fun ht =>
    (dag_copy h hs hd).intact _ (htop.mem_iff.1 ht)
  -- a copy is set apart just if its state is on the path of a lexicon that is not closed
  have hapart : ∀ {s s'}, Copied (states.map Prod.fst) s s' →
      (((marked a.slotCount ((l.contentsOf states).setApart
        (copyPath (states.map Prod.fst) l.automaton.path)))[s'.slot]?).getD false = true ↔
          l.lifecycle ≠ .closed ∧ s ∈ l.automaton.pathStates) := by
    intro s s' hss
    obtain ⟨x, x', -, hx', -⟩ := hmatch.state hss
    rw [getElem?_marked (slot_lt_of_get? hx')]
    exact mem_setApart_iff h hs hd hss
  refine exists_registerAll (fun _ => Iff.rfl) (fun s hs => hlive hs)
    (fun hsplit _ _ he => htop.children_first hsplit he) (fun {s' c t'} hq he => ?_) htop.nodup
    fun {s' t' x y} hs' ht' hqs hqt hx hy hkind => ?_
  · obtain ⟨s, hss⟩ := exists_copied hs hd he.isLive
    obtain ⟨t, hedge, htt⟩ := (edge_copy_iff hs hd hss).1 he
    rw [hapart hss] at hq
    rw [hapart htt]
    exact fun ⟨hl, hm⟩ => hq ⟨hl, h.sound.source_mem hedge hm⟩
  · obtain ⟨s, hss⟩ := exists_copied hs hd (hlive hs')
    obtain ⟨t, htt⟩ := exists_copied hs hd (hlive ht')
    rw [hapart hss] at hqs
    rw [hapart htt] at hqt
    have hwords : ∀ w, l.arena.Accepts s w ↔ l.arena.Accepts t w := by
      intro w
      rw [hmatch.accepts_iff hss, hmatch.accepts_iff htt]
      exact accepts_of_edges_eq hx hy (congrArg Fingerprint.isFinal hkind)
        (congrArg Fingerprint.edges hkind)
    have hreach := hs.mem_iff.1 hss.1
    have hreach' := hs.mem_iff.1 htt.1
    obtain rfl : s = t := by
      by_cases hl : l.lifecycle = .closed
      · exact h.eq_of_closed hl hreach hreach' hwords
      · exact h.sound.eq_of_accepts_iff (h.sound.dag_root.intact s hreach)
          (h.sound.dag_root.intact t hreach') (fun hm => hqs ⟨hl, hm⟩) (fun hm => hqt ⟨hl, hm⟩)
          hwords
    exact hmatch.right_unique hss htt

end

end Dump

namespace Lexicon

open Dump

variable {l : Lexicon σ} {states : List (StateId × State σ)}

/-- **What a dump says is loaded**, and the lexicon that is loaded cannot be told apart from the one
that was dumped. -/
theorem Valid.exists_ofContents (h : l.Valid) (hs : Listed l.arena l.root states) (identity : Nat) :
    ∃ l', (ofContents identity (l.contentsOf states)).result = .ok l' ∧ Alike l l' := by
  have hwithin : Within (l.contentsOf states).nodes.length (l.contentsOf states).edges := by
    rw [length_nodes, List.length_map]
    exact hs.within_edgesAmong
  obtain ⟨a, ha, hd⟩ := exists_arena hwithin hs.sorted_edgesAmong
  have hmatch := matching_copies hs hd
  have hroot := copied_root hs
  have hdag := dag_copy h hs hd
  have hlisting := listing_copy h hs hd hroot
  obtain ⟨order, hpost, htop⟩ := hdag.exists_postorder
  obtain ⟨n, hn, hcount⟩ := Numbering.compute_eq_some hdag
    (by rw [← hlisting, ← h.size_eq]; exact h.size_lt)
  obtain ⟨lengths, hlengths, hlong⟩ :=
    htop.longestPaths_spec fun s hm => hdag.intact s (htop.mem_iff.1 hm)
  obtain ⟨r, hr⟩ := exists_registerAll_copy h hs hd htop
  have hlongest : ((lengths[0]?).join).getD 0 = l.longest := by
    obtain ⟨o, ho, hlen⟩ := h.longest
    have hcopy := hlong ⟨0⟩ (htop.mem_iff.2 (.refl _))
    rw [← hlen, ho.unique ((Longest.congr fun w => hmatch.accepts_iff hroot).2 hcopy)]
  have hload : (ofContents identity (l.contentsOf states)).result = .ok (ofAutomaton identity
      ⟨a, r, ⟨0⟩, copyPath (states.map Prod.fst) l.automaton.path⟩ l.size l.longest
        l.lifecycle) := by
    refine ofContents_eq_ok_iff.2 ⟨a, order, n, lengths, _, r, ha,
      checkGraph_eq_ok_iff.2 ⟨hpost, preorder_copy hs hd⟩, hn, checkCounts_copy h hs hd hcount, ?_,
      hlengths, hlongest, path_copy h hs hd, hr, rfl⟩
    rw [hcount _ (.refl _), ← hlisting, ← h.size_eq]
    rfl
  refine ⟨_, hload, h, valid_of_ofContents hwithin hs.sorted_edgesAmong hload, rfl, ?_, fun w => ?_⟩
  · simp [ofAutomaton, copyPath, lastWord]
  · exact hmatch.accepts_iff hroot

/-- The numbers of a dump can be written if there are not too many states and edges. -/
theorem Valid.wellFormed_contentsOf (h : l.Valid) (hs : Listed l.arena l.root states)
    (hstates : states.length < range 4) (hedges : (edgesAmong states).length < range 4) :
    (l.contentsOf states).WellFormed := by
  have hwithin : Within (l.contentsOf states).nodes.length (l.contentsOf states).edges := by
    rw [length_nodes, List.length_map]
    exact hs.within_edgesAmong
  have hlength : (l.contentsOf states).nodes.length = states.length := by
    rw [length_nodes, List.length_map]
  refine ⟨hwithin, hs.sorted_edgesAmong, ?_, fun hl => h.lastWord_eq_nil hl, fun node hm => ?_,
    h.header_fits hs (Nat.le_of_lt hstates) hedges (hlength ▸ hstates)⟩
  · intro hnil
    have hlongest := h.longest_lt hs
    rw [← hlength, hnil] at hlongest
    exact Nat.not_lt_zero _ hlongest
  · obtain ⟨p, hp, rfl⟩ := List.mem_map.1 hm
    obtain ⟨w, hw⟩ := hs.mem_iff.1 (List.mem_map_of_mem hp)
    have hle := length_listing_le h.sound.dag_root hw
    have hlt := h.size_lt
    rw [h.size_eq] at hlt
    exact (by decide : range 8 = countLimit) ▸ Nat.lt_of_le_of_lt hle hlt

/-- **A dump is written and loaded again**, unless it has too many states or edges to count. -/
theorem Valid.exists_load [SymbolCode σ] (h : l.Valid)
    (hstates : {s | l.arena.Reaches l.root s}.ncard < range 4)
    (hedges : {e : StateId × σ × StateId |
      l.arena.Reaches l.root e.1 ∧ l.arena.Edge e.1 e.2.1 e.2.2}.ncard < range 4)
    (identity : Nat) :
    ∃ bs n l', l.dump.result = .ok (bs, { l with numbering? := some n }) ∧
      Numbering.compute l.arena l.root = .ok (some n) ∧
      (load identity bs).result = .ok l' ∧ Alike l l' := by
  obtain ⟨states, n, hs, hcontents, hn⟩ := h.contents_spec
  rw [← hs.length_eq_ncard] at hstates
  rw [← hs.length_edgesAmong_eq_ncard] at hedges
  obtain ⟨l', hload, halike⟩ := h.exists_ofContents hs identity
  refine ⟨(l.contentsOf states).bytes, n, l', ?_, hn, ?_, halike⟩
  · have hle : ¬range 4 ≤ (l.contentsOf states).edges.length := Nat.not_le_of_lt hedges
    rw [dump_of_contents hcontents, if_neg hle]
  · unfold load
    rw [Run.result_bind, bind_eq_ok_iff]
    exact ⟨_, Run.result_liftM_format_eq_ok_iff.2 (Contents.ofBytes_eq_ok_iff.2
      ⟨h.wellFormed_contentsOf hs hstates hedges, rfl⟩), hload⟩

end Lexicon

end WordGraph
