import WordGraph.Proofs.Arena.Orders
import WordGraph.Proofs.Dump.Frame
import WordGraph.Proofs.Dump.Load

/-!
# What is not loaded is refused

Bytes that are not the dump of a lexicon are refused with a reason, and what the reason tells of the
graph is the case. No check relies on what the checks before it have not made sure of: the searches
meet no slot without a state, and a state is registered when its children are.

* `Verdict` — what the reasons tell of the graph
* `checkGraph_failsOnly`, `checkCounts_failsOnly`, `registerAll_failsOnly` — the checks
* `Lexicon.load_failsOnly` — whatever the bytes, they are refused for a true reason at worst
* `Lexicon.load_noFault` — so loading them is no fault
-/

namespace WordGraph

open Arena Automaton

variable {σ : Type} [Symbol σ]

namespace Dump

variable {a : Arena σ} {s t : StateId} {c : σ} {nodes : List Node} {edges : List (Edge σ)}
  {order : List StateId} {path : List (σ × StateId)} {apart : Array Bool} {r : Register σ}
  {k : Contents σ} {n : Numbering} {p : StateId → Prop} {m : Nat}

/-! ## What the reasons tell -/

/-- A node is not on the path of the last word, which starts at the first node; where no words can be
added, there is no such path. -/
def Contents.OffPath (k : Contents σ) (a : Arena σ) (s : StateId) : Prop :=
  k.lifecycle ≠ .closed → ∀ w, w <+: k.frontier → ¬a.Path ⟨0⟩ w s

/-- What a reason tells of the graph that contents describe, if it tells anything of it. -/
def Verdict (k : Contents σ) (a : Arena σ) : FormatError → Prop
  | .cycle => ∃ s w, a.Reaches ⟨0⟩ s ∧ a.Path s w s ∧ w ≠ []
  | .unreachable i => a.Acyclic ⟨0⟩ ∧ i < k.nodes.length ∧ ¬a.Reaches ⟨0⟩ ⟨i⟩ ∧
      ∀ j < i, a.Reaches ⟨0⟩ ⟨j⟩
  | .nodeOrder => (∀ i < k.nodes.length, a.Reaches ⟨0⟩ ⟨i⟩) ∧
      ∃ d, a.depthFirst ⟨0⟩ = some d ∧ d.met ≠ (List.range k.nodes.length).map StateId.mk
  | .countOverflow => ∃ i < k.nodes.length, 2 ^ 64 ≤ {w | a.Accepts ⟨i⟩ w}.encard
  | .countMismatch i => ∃ node, k.nodes[i]? = some node ∧
      {w | a.Accepts ⟨i⟩ w}.encard ≠ node.count
  | .notMinimal i => i ≠ 0 ∧ i < k.nodes.length ∧
      ((∀ w, ¬a.Accepts ⟨i⟩ w) ∨ k.OffPath a ⟨i⟩ ∧
        ∃ j < k.nodes.length, j ≠ i ∧ k.OffPath a ⟨j⟩ ∧
          ∀ w, a.Accepts ⟨i⟩ w ↔ a.Accepts ⟨j⟩ w)
  | _ => True

/-- An error is a reason that tells the truth about the graph. -/
def Justified (k : Contents σ) (a : Arena σ) : Error σ → Prop
  | .format e => Verdict k a e
  | _ => False

section

variable [SymbolCode σ]

/-- Bytes describe a graph: they are the writing of contents, and the graph is made of the nodes and
edges of these. -/
structure Describes (bs : Bytes) (k : Contents σ) (a : Arena σ) : Prop where
  bytes_eq : k.bytes = bs
  wellFormed : k.WellFormed
  arena_eq : k.arena = .ok a
  described : Described k.nodes k.edges a

/-- An error is a reason, and if it tells anything of the graph that the bytes describe, it tells the
truth. -/
def Truthful (bs : Bytes) : Error σ → Prop
  | .format e => e.isAboutGraph → ∃ (k : Contents σ) (a : Arena σ), Describes bs k a ∧ Verdict k a e
  | _ => False

end

/-! ## The graph -/

theorem size_marked (m : Nat) (ss : List StateId) : (marked m ss).size = m := by
  have hfold : ∀ marks : Array Bool,
      (ss.foldl (fun marks s => marks.setIfInBounds s.slot true) marks).size = marks.size := by
    induction ss with
    | nil => exact fun _ => rfl
    | cons s ss ih =>
      intro marks
      rw [List.foldl_cons, ih, Array.size_setIfInBounds]
  rw [marked, hfold, Array.size_replicate]

/-- The search finds all of so many slots just if it finds as many. -/
theorem length_eq_iff_forall_mem (hnd : order.Nodup) (hlt : ∀ s ∈ order, s.slot < m) :
    order.length = m ↔ ∀ i < m, (⟨i⟩ : StateId) ∈ order := by
  have hslots : ((List.range m).map StateId.mk).Nodup :=
    List.nodup_range.map fun _ _ h => StateId.mk.inj h
  have hsub : order.Subperm ((List.range m).map StateId.mk) := by
    refine List.subperm_of_subset hnd fun s hs => ?_
    exact List.mem_map.2 ⟨s.slot, List.mem_range.2 (hlt s hs), rfl⟩
  constructor
  · intro hlen i hi
    have hperm := hsub.perm_of_length_le (by simp [hlen])
    exact hperm.mem_iff.2 (List.mem_map_of_mem (List.mem_range.2 hi))
  · intro hall
    have hsub' : ((List.range m).map StateId.mk).Subperm order := by
      refine List.subperm_of_subset hslots fun s hs => ?_
      obtain ⟨i, hi, rfl⟩ := List.mem_map.1 hs
      exact hall i (List.mem_range.1 hi)
    simpa using (hsub.antisymm hsub').length_eq

/-- Where a search has not found all of so many slots, the first one without a mark is the first one that
it has not found. -/
theorem findIdx?_marked (hall : ¬∀ i < m, (⟨i⟩ : StateId) ∈ order) :
    ∃ i < m, ((marked m order).findIdx? (!·)).getD 0 = i ∧ ⟨i⟩ ∉ order ∧ ∀ j < i, ⟨j⟩ ∈ order := by
  have hmem : ∀ {i} (hi : i < (marked m order).size), (marked m order)[i] = true ↔ ⟨i⟩ ∈ order := by
    intro i hi
    rw [← getElem?_marked (hi.trans_eq (size_marked m order)), Array.getElem?_eq_getElem hi,
      Option.getD_some]
  cases hfind : (marked m order).findIdx? (!·) with
  | some i =>
    obtain ⟨hi, hnot, hbefore⟩ := Array.findIdx?_eq_some_iff_getElem.1 hfind
    refine ⟨i, hi.trans_eq (size_marked m order), rfl, fun hm => ?_, fun j hj => ?_⟩
    · rw [(hmem hi).2 hm] at hnot
      cases hnot
    · exact (hmem (hj.trans hi)).1 (by simpa using hbefore j hj)
  | none =>
    refine absurd (fun i hi => ?_) hall
    rw [← size_marked m order] at hi
    have hmarked := Array.findIdx?_eq_none_iff.1 hfind _ (Array.getElem_mem hi)
    exact (hmem hi).1 (by simpa using hmarked)

/-- A graph is refused for a cycle, for nodes out of reach or for their order only if that is so. -/
theorem checkGraph_failsOnly (hd : Described k.nodes k.edges a) (hi : a.Intact ⟨0⟩) :
    FailsOnly (Justified k a) (checkGraph a) := by
  unfold checkGraph
  refine .bind (.lift hi.exists_postorder) fun post hpost => .guard (fun hflag => ?cycle) fun hflag =>
    .bind (.lift (exists_preorder hi)) fun order ho => .refuse (fun hlen => ?unreachable) fun hlen =>
      .refuse (fun hne => ?nodeOrder) fun _ => .ok _
  all_goals rw [liftM_eq_ok_iff] at hpost
  case cycle =>
    show ∃ s w, a.Reaches ⟨0⟩ s ∧ a.Path s w s ∧ w ≠ []
    by_contra hno
    refine hflag ((isAcyclic_iff_of_postorder hi hpost).2 fun s w hs hp => ?_)
    by_contra hne
    exact hno ⟨s, w, hs, hp, hne⟩
  all_goals
    rw [liftM_eq_ok_iff] at ho
    have hacyclic := (isAcyclic_iff_of_postorder hi hpost).1 hflag
    have hmem : ∀ {s}, s ∈ order ↔ a.Reaches ⟨0⟩ s := mem_preorder_iff ho
    have hlt : ∀ s ∈ order, s.slot < a.slotCount := by
      intro s hs
      obtain ⟨x, hx⟩ := isLive_iff.1 (hi s (hmem.1 hs))
      exact slot_lt_of_get? hx
    rw [ne_eq, length_eq_iff_forall_mem (nodup_preorder ho) hlt] at hlen
  case unreachable =>
    obtain ⟨i, hin, hfind, hnot, hbefore⟩ := findIdx?_marked hlen
    rw [hfind]
    rw [hd.slotCount_eq] at hin
    exact ⟨hacyclic, hin, fun hr => hnot (hmem.2 hr), fun j hj => hmem.1 (hbefore j hj)⟩
  case nodeOrder =>
    obtain ⟨d, hrec⟩ := hi.exists_depthFirst
    obtain rfl : order = d.met := Except.ok.inj (ho.symm.trans (preorder_of_depthFirst hrec))
    rw [not_not, hd.slotCount_eq] at hlen
    rw [hd.slotCount_eq] at hne
    exact ⟨fun i hin => hmem.1 (hlen i hin), d, hrec, hne⟩

/-! ## The counts -/

/-- What the stored counts are refused for is true of the node that the reason names. -/
theorem checkCounts_failsOnly {P : FormatError → Prop} {i : Nat}
    (hcount : ∀ j node, nodes[j]? = some node → n.count ⟨i + j⟩ ≠ node.count →
      P (.countMismatch (i + j)))
    (hzero : ∀ j node, nodes[j]? = some node → n.count ⟨i + j⟩ = 0 → i + j ≠ 0 →
      P (.notMinimal (i + j))) : FailsOnly P (checkCounts n i nodes) := by
  induction nodes generalizing i with
  | nil => exact .ok ()
  | cons node nodes ih =>
    rw [checkCounts]
    split
    · next hne => exact .error (hcount 0 node rfl hne)
    · next heq =>
      split
      · next hz => exact .error (hzero 0 node rfl ((not_not.1 heq).trans hz.1) hz.2)
      · refine ih (fun j m hm hne => ?_) fun j m hm hz => ?_
        · have h := hcount (j + 1) m hm
          rw [← Nat.add_assoc, Nat.add_right_comm] at h
          exact h hne
        · have h := hzero (j + 1) m hm
          rw [← Nat.add_assoc, Nat.add_right_comm] at h
          exact h hz

/-- With the right numbers of words at hand, the stored counts are refused for a true reason. -/
theorem checkCounts_truthful
    (hwords : ∀ i < k.nodes.length, {w | a.Accepts ⟨i⟩ w}.encard = n.count ⟨i⟩) :
    FailsOnly (Verdict k a) (checkCounts n 0 k.nodes) := by
  refine checkCounts_failsOnly (fun i node hi hne => ?_) fun i node hi hzero hne => ?_
  · rw [Nat.zero_add] at hne ⊢
    refine ⟨node, hi, ?_⟩
    rw [hwords i (List.getElem?_eq_some_iff.1 hi).1]
    exact_mod_cast hne
  · rw [Nat.zero_add] at hzero hne ⊢
    have hlt := (List.getElem?_eq_some_iff.1 hi).1
    refine ⟨hne, hlt, .inl fun w hw => ?_⟩
    have hempty := hwords i hlt
    rw [hzero, Nat.cast_zero, Set.encard_eq_zero] at hempty
    exact Set.eq_empty_iff_forall_notMem.1 hempty w hw

/-! ## The path of the last word -/

theorem spell_failsOnly {P : Error σ → Prop} (hP : P (.format .badFrontier)) (h : a.Intact s)
    (w : Word σ) : FailsOnly P (spell a edges path s w) := by
  induction w generalizing s path with
  | nil =>
    obtain ⟨x, hx⟩ := isLive_iff.1 (h s (.refl s))
    exact .bind (.lift ⟨x, state_eq_ok_iff.2 hx⟩) fun _ _ => .guard (fun _ => hP) fun _ => .ok _
  | cons c w ih =>
    obtain ⟨x, hx⟩ := isLive_iff.1 (h s (.refl s))
    have htarget : a.target? s c = .ok (x.edges.find? c) := by
      rw [target?, state_eq_ok_iff.2 hx]
      rfl
    refine .bind (.lift ⟨_, htarget⟩) fun t? ht => ?_
    cases t? with
    | none => exact .error hP
    | some t =>
      have hedge : a.Edge s c t :=
        ⟨x, hx, Except.ok.inj (htarget.symm.trans (liftM_eq_ok_iff.1 ht))⟩
      dsimp only
      split
      · exact ih fun u hu => h u (hedge.reaches.trans hu)
      · exact .error hP

theorem path_failsOnly (h : a.Intact ⟨0⟩) : FailsOnly (Justified k a) (k.path a) := by
  unfold Contents.path
  split
  · obtain ⟨x, hx⟩ := isLive_iff.1 (h ⟨0⟩ (.refl _))
    exact .bind (.lift ⟨x, state_eq_ok_iff.2 hx⟩) fun _ _ =>
      .refuse (fun _ => trivial) fun _ => .ok _
  · exact spell_failsOnly trivial h _
  · exact .ok _

/-! ## Registering -/

/-- A state is refused only for one that is registered and accepts the same words. -/
theorem registerStep_failsOnly {P : Error σ → Prop} (h : Registers a p r)
    (hp : ∀ t, p t → a.isLive t) (hs : a.isLive s)
    (hchild : (apart[s.slot]?).getD false = false → ∀ c t, a.Edge s c t → p t)
    (hP : (apart[s.slot]?).getD false = false → ∀ t, p t → (∀ w, a.Accepts s w ↔ a.Accepts t w) →
      P (.format (.notMinimal s.slot))) :
    FailsOnly P (registerStep a apart r s) := by
  unfold registerStep
  split
  · exact .ok _
  · next hapart =>
    rw [Bool.not_eq_true] at hapart
    obtain ⟨x, hx⟩ := isLive_iff.1 hs
    have hkind := h.kind_eq hp hx (hchild hapart)
    obtain ⟨isNew, r', hins⟩ := exists_insert_of_kind hkind
    refine .bind (.lift ⟨_, hins⟩) fun q hq => .guard (fun hnot => ?_) fun _ => .ok _
    cases Except.ok.inj ((liftM_eq_ok_iff.1 hq).symm.trans hins)
    obtain ⟨f, hf, hnew, -⟩ := Register.get?_of_insert hins
    obtain rfl : f = x.fingerprint := Except.ok.inj (hf.symm.trans hkind)
    obtain ⟨t, ht⟩ : ∃ t, r.get? x.fingerprint = some t := by
      rw [← Option.isSome_iff_exists, Option.isSome_iff_ne_none]
      rintro hnone
      rw [hnone] at hnew
      exact hnot hnew
    obtain ⟨hpt, y, hy, hfy⟩ := h.of_get? ht
    obtain ⟨hend, hedges⟩ := Fingerprint.mk.inj hfy
    exact hP hapart t hpt fun w => accepts_of_edges_eq hx hy hend.symm hedges.symm

/-- Registering all states fails only for two that accept the same words, if the children of those that
are not kept apart come first and are not kept apart either. -/
theorem registerAll_failsOnly {P : Error σ → Prop} {q : StateId → Prop}
    (hq : ∀ t, q t ↔ ¬(apart[t.slot]?).getD false = true) (hlive : ∀ s ∈ order, a.isLive s)
    (hfirst : a.ChildrenFirst [] order) (hchild : ∀ {s c t}, q s → a.Edge s c t → q t)
    (hnd : order.Nodup)
    (hP : ∀ s ∈ order, ∀ t ∈ order, s ≠ t → q s → q t →
      (∀ w, a.Accepts s w ↔ a.Accepts t w) → P (.format (.notMinimal s.slot))) :
    FailsOnly P (registerAll a apart order) := by
  rw [registerAll_eq]
  suffices hfold : ∀ (rest done : List StateId) (r : Register σ), a.ChildrenFirst done rest →
      (done.reverse ++ rest = order) → Registers a (fun t => t ∈ done ∧ q t) r →
      FailsOnly P (rest.foldlM (registerStep a apart) r) from
    hfold order [] ∅ hfirst rfl ((Registers.empty a).congr fun t => by simp)
  intro rest
  induction rest with
  | nil => exact fun _ _ _ _ _ => .ok _
  | cons s rest ih =>
    intro done r hfirst hsplit hreg
    have hdone : ∀ t ∈ done, t ∈ order := by
      intro t ht
      rw [← hsplit]
      exact List.mem_append_left _ (List.mem_reverse.2 ht)
    have hs : s ∈ order := by
      rw [← hsplit]
      exact List.mem_append_right _ (List.mem_cons_self ..)
    have hnew : s ∉ done := by
      rw [← hsplit, List.nodup_append] at hnd
      exact fun hm => hnd.2.2 s (List.mem_reverse.2 hm) s (List.mem_cons_self ..) rfl
    rw [List.foldlM_cons]
    refine .bind (registerStep_failsOnly hreg (fun t ht => hlive t (hdone t ht.1)) (hlive s hs)
      (fun hapart c t he => ⟨hfirst.1 c t he, hchild ((hq s).2 (by rw [hapart]; decide)) he⟩)
      fun hapart t ht hsame => ?_) fun r' hstep => ih (s :: done) r' hfirst.2 (by simp [← hsplit]) ?_
    · refine hP s hs t (hdone t ht.1) ?_ ((hq s).2 (by rw [hapart]; decide)) ht.2 hsame
      rintro rfl
      exact hnew ht.1
    · refine (hreg.step hstep).congr fun t => ?_
      rw [← hq, List.mem_cons, or_and_right, or_comm]

/-- A state with an edge to one that is set apart is set apart as well: only the link of the path
leads there. -/
theorem Spelled.mem_setApart_of_edge (h : Spelled k a order path) (he : a.Edge s c t)
    (ht : t ∈ k.setApart path) : s ∈ k.setApart path := by
  rcases List.mem_cons.1 (Contents.mem_of_mem_setApart ht) with rfl | ht
  · exact absurd he h.not_edge_root
  · have hlife : k.lifecycle ≠ .closed := by
      intro hlife
      rw [h.path_eq_nil (by rw [hlife]; decide)] at ht
      cases ht
    obtain ⟨hlinks, hdeg⟩ := h.forall_links
    obtain ⟨⟨u, d, v⟩, hl, rfl⟩ := exists_link (⟨0⟩ : StateId) ht
    obtain ⟨rfl, rfl⟩ := h.described.unique_of_inDegree (hdeg _ ht) he (hlinks _ hl)
    exact Contents.mem_setApart hlife (source_mem_of_links hl)

/-- A state that is not set apart is not on the path that the stored last word spells. -/
theorem Spelled.offPath (h : Spelled k a order path)
    (hfrontier : k.lifecycle ≠ .active → k.frontier = []) (hs : s ∉ k.setApart path) :
    k.OffPath a s := by
  intro hlife w hw hp
  refine hs (Contents.mem_setApart hlife ?_)
  have hword : path.map Prod.fst = k.frontier := by
    by_cases hactive : k.lifecycle = .active
    · have hpath := path_eq_ok_iff.1 h.spelled
      rw [hactive] at hpath
      exact hpath.1
    · rw [h.path_eq_nil hactive, hfrontier hactive]
      rfl
  rw [← hword] at hw
  exact mem_of_isPrefix_of_links h.forall_links.1 hw hp

/-- No other state accepts the same words as the first: words that are accepted there get longer on the
way from the first. -/
theorem Counted.not_accepts_iff_root (h : Counted k a order n path) (ht : a.isLive t)
    (hne : t ≠ ⟨0⟩) : ¬∀ w, a.Accepts ⟨0⟩ w ↔ a.Accepts t w := by
  intro hsame
  obtain ⟨v, hv⟩ := h.reaches ht
  have hpos : 0 < v.length := by
    rw [List.length_pos_iff]
    rintro rfl
    exact hne (path_nil_iff.1 hv).symm
  have hlong : ∀ i, ∃ w, a.Accepts t w ∧ i ≤ w.length := by
    intro i
    induction i with
    | zero =>
      obtain ⟨w, hw⟩ := h.exists_accepts ht hne
      exact ⟨w, hw, Nat.zero_le _⟩
    | succ i ih =>
      obtain ⟨w, hw, hle⟩ := ih
      refine ⟨v ++ w, (hsame _).1 ((accepts_append_iff hv).2 hw), ?_⟩
      rw [List.length_append]
      omega
  obtain ⟨w, hw, hle⟩ := hlong a.slotCount
  have hlt := (h.dag.of_reaches ⟨v, hv⟩).length_lt_of_accepts hw
  omega

/-- The states of a graph with a spelled path are refused only where two of them accept the same
words. -/
theorem Counted.registerAll_failsOnly (h : Counted k a order n path)
    (hfrontier : k.lifecycle ≠ .active → k.frontier = []) :
    FailsOnly (Justified k a) (registerAll a (marked a.slotCount (k.setApart path)) order) := by
  have hmarked : ∀ t, a.isLive t →
      (((marked a.slotCount (k.setApart path))[t.slot]?).getD false = true ↔
        t ∈ k.setApart path) := fun t ht => getElem?_marked (h.isLive_iff.1 ht)
  have hlive : ∀ s ∈ order, a.isLive s := fun s hs => h.dag.intact s (h.topological.mem_iff.1 hs)
  refine Dump.registerAll_failsOnly (fun _ => Iff.rfl) hlive h.topological.childrenFirst ?_
    h.topological.nodup fun s hs t ht hne hqs hqt hsame => ?_
  · intro s c t hs he ht
    rw [hmarked t (h.described.edge_live h.within he)] at ht
    exact hs ((hmarked s he.isLive).2 (h.mem_setApart_of_edge he ht))
  · rw [hmarked s (hlive s hs)] at hqs
    rw [hmarked t (hlive t ht)] at hqt
    have hroot : s ≠ ⟨0⟩ := by
      rintro rfl
      exact h.not_accepts_iff_root (hlive t ht) hne.symm hsame
    obtain ⟨i⟩ := s
    obtain ⟨j⟩ := t
    exact ⟨fun hi => hroot (congrArg StateId.mk hi), h.described.isLive_iff.1 (hlive _ hs),
      .inr ⟨h.offPath hfrontier hqs, j, h.described.isLive_iff.1 (hlive _ ht),
        fun hij => hne (congrArg StateId.mk hij.symm), h.offPath hfrontier hqt, hsame⟩⟩

end Dump

/-! ## Loading -/

namespace Lexicon

open Dump

variable {k : Contents σ} {a : Arena σ}

/-- Contents with good edges are loaded or refused for a true reason. -/
theorem ofContents_failsOnly (hk : k.WellFormed) (ha : k.arena = .ok a)
    (hd : Described k.nodes k.edges a) (identity : Nat) :
    FailsOnly (Justified k a) (ofContents identity k).result := by
  have hroot : a.isLive ⟨0⟩ := hd.isLive_iff.2 (List.length_pos_iff.2 hk.nodes_ne)
  have hlive : ∀ {s c t}, a.Edge s c t → a.isLive t := hd.edge_live hk.within
  have hintact : a.Intact ⟨0⟩ := fun _ ⟨_, h⟩ => isLive_of_path hlive hroot h
  unfold ofContents
  simp only [Run.result_bind]
  refine .bind (.lift ⟨a, ha⟩) fun a' ha' => ?_
  obtain rfl : a' = a := Except.ok.inj ((Run.result_liftM_eq_ok_iff.1 ha').symm.trans ha)
  -- the graph is in order from here on, so the searches behind are those of a graph without cycles
  refine .bind (checkGraph_failsOnly hd hintact) fun order hgraph => ?_
  obtain ⟨rank, hrank⟩ := ranked_of_checkGraph hgraph
  have hdag : a'.Dag ⟨0⟩ := hrank.dag hlive hroot
  have htop := topological_of_checkGraph hgraph
  rcases Numbering.compute_spec hdag with ⟨hnone, hle⟩ | ⟨n, hsome, -, hcount⟩
  · refine .bind (.lift ⟨_, hnone⟩) fun n? hn => ?_
    cases (Run.result_liftM_eq_ok_iff.1 hn).symm.trans hnone
    refine .error ⟨0, List.length_pos_iff.2 hk.nodes_ne, ?_⟩
    rw [encard_accepts hdag]
    exact_mod_cast hle
  refine .bind (.lift ⟨_, hsome⟩) fun n? hn => ?_
  cases (Run.result_liftM_eq_ok_iff.1 hn).symm.trans hsome
  have hwords : ∀ i < k.nodes.length, {w | a'.Accepts ⟨i⟩ w}.encard = n.count ⟨i⟩ := by
    intro i hi
    rw [← hd.slotCount_eq] at hi
    have hr := reaches_of_checkGraph (s := ⟨i⟩) hgraph hi
    rw [encard_accepts (hdag.of_reaches hr), hcount _ hr]
  simp only [Run.result_bind]
  refine .bind (.ok _) fun _ _ => .bind (.lift_format (checkCounts_truthful hwords)) fun _ hcounts =>
    .run_guard (fun _ => trivial) fun _ => ?_
  obtain ⟨lengths, hlengths, -⟩ :=
    htop.longestPaths_spec fun s hs => hdag.intact s (htop.mem_iff.1 hs)
  simp only [Run.result_bind]
  refine .bind (.lift ⟨lengths, hlengths⟩) fun _ _ => .run_guard (fun _ => trivial) fun _ => ?_
  simp only [Run.result_bind]
  refine .bind (path_failsOnly hintact) fun path hpath => ?_
  have hcounted : Counted k a' order n path :=
    ⟨⟨hk.within, hd, hgraph, hpath⟩, hsome, Run.result_liftM_format_eq_ok_iff.1 hcounts⟩
  exact .bind (hcounted.registerAll_failsOnly hk.frontier_eq) fun _ _ =>
    .bind (.ok _) fun _ _ => .ok _

/-- **Whatever the bytes, loading them makes a lexicon or fails with a true reason.** -/
theorem load_failsOnly [SymbolCode σ] (identity : Nat) (bs : Bytes) :
    FailsOnly (Truthful bs) (load identity bs : Run σ (Lexicon σ)).result := by
  unfold load
  rw [Run.result_bind]
  refine .bind (.lift_format fun e he habout => ?_) fun k hk => ?_
  · rw [Contents.ofBytes_failsOnly bs e he] at habout
    cases habout
  · obtain ⟨hwf, hbytes⟩ := Contents.ofBytes_eq_ok_iff.1 (Run.result_liftM_format_eq_ok_iff.1 hk)
    obtain ⟨a, ha, hd⟩ := exists_arena hwf.within hwf.sorted
    intro e he
    have hjust := ofContents_failsOnly hwf ha hd identity e he
    cases e with
    | format e => exact fun _ => ⟨k, a, ⟨hbytes.symm, hwf, ha, hd⟩, hjust⟩
    | _ => exact hjust.elim

/-- **Whatever the bytes, loading them is no fault**: they make a lexicon or are refused with a
reason. -/
theorem load_noFault [SymbolCode σ] (identity : Nat) (bs : Bytes) :
    NoFault (load identity bs : Run σ (Lexicon σ)).result :=
  fun f hf => load_failsOnly identity bs (.fault f) hf

end Lexicon

end WordGraph
