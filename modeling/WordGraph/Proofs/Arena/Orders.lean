import Mathlib
import WordGraph.Proofs.Arena.DepthFirst
import WordGraph.Proofs.Arena.Pruned

/-!
# The orders of a search

A search of a graph without dangling edges ends, whatever cycles and shared states the graph has, and
lists each state in reach once: `preorder` in the order in which a recursive search meets them,
`postorder` in the order in which it is done with them. Neither depends on whether the search looks
ahead, and the names of the states are of no account.

* `Renumbers`, `Renumbers.preorder` — a graph with other names for its states is searched in step
* `FirstVisits`, `Intact.exists_firstVisits` — what `preorder` lists
* `Topological.acyclic` — a list of states, children first, tells that there is no cycle
* `Departures`, `Intact.exists_departures` — what `postorder` lists, and what its flag tells
-/

namespace WordGraph.Arena

variable {σ : Type} [Symbol σ] {a a' : Arena σ} {root s t : StateId} {c : σ} {x : State σ}
  {w : Word σ} {order : List StateId} {post : Postorder} {f : StateId → StateId}

/-! ## Other names for the states -/

/-- The second graph is the first one with its states renamed: no two in reach of the start get one
name, and under its new name each has the same end and the same edges, with renamed targets. -/
structure Renumbers (a a' : Arena σ) (root : StateId) (f : StateId → StateId) : Prop where
  inj : ∀ {s t}, a.Reaches root s → a.Reaches root t → f s = f t → s = t
  state : ∀ {s x}, a.Reaches root s → a.get? s = some x → ∃ x', a'.get? (f s) = some x' ∧
    x'.isFinal = x.isFinal ∧ x'.edges.edges = x.edges.edges.map fun e => (e.1, f e.2)

namespace Renumbers

theorem matching (h : a.Renumbers a' root f) (hi : a.Intact root) :
    Matching a a' fun s s' => a.Reaches root s ∧ f s = s' where
  state := by
    rintro s _ ⟨hs, rfl⟩
    obtain ⟨x, hx⟩ := isLive_iff.1 (hi s hs)
    obtain ⟨x', hx', hend, hedges⟩ := h.state hs hx
    refine ⟨x, x', hx, hx', hend.symm, ?_⟩
    rw [hedges, List.forall₂_map_right_iff, List.forall₂_same]
    rintro ⟨c, t⟩ he
    exact ⟨rfl, hs.trans ((edge_iff_mem hx).2 he).reaches, rfl⟩
  left_unique := by
    rintro s t _ ⟨hs, rfl⟩ ⟨ht, he⟩
    exact h.inj hs ht he.symm
  right_unique := by
    rintro s _ _ ⟨-, rfl⟩ ⟨-, rfl⟩
    rfl

/-- **A renamed graph is searched in the renamed order.** -/
theorem preorder (h : a.Renumbers a' root f) (hi : a.Intact root)
    (ho : a.preorder root = .ok order) : a'.preorder (f root) = .ok (order.map f) := by
  obtain ⟨order', ho', hmatch⟩ := (h.matching hi).preorder ⟨.refl root, rfl⟩ ho
  have hmap : order.map f = order' := by
    rw [← List.forall₂_eq_eq_eq, List.forall₂_map_left_iff]
    exact hmatch.imp fun _ _ hs => hs.2
  rw [ho', hmap]

end Renumbers

/-! ## The states as they are met -/

/-- The states in reach as a search meets them. -/
structure FirstVisits (a : Arena σ) (root : StateId) (order : List StateId) : Prop where
  preorder_eq : a.preorder root = .ok order
  preorderPruned_eq : a.preorderPruned root = .ok order
  depthFirst_eq : ∃ left, a.depthFirst root = some ⟨order, left⟩
  nodup : order.Nodup
  mem_iff : ∀ {s}, s ∈ order ↔ a.Reaches root s
  renumbers : ∀ {f a'}, a.Renumbers a' root f → a'.preorder (f root) = .ok (order.map f)

theorem Intact.exists_depthFirst (h : a.Intact root) : ∃ d, a.depthFirst root = some d :=
  exists_depthFirstFrom (p := a.Reaches root) (fun hs he => hs.trans he.reaches) h
    (by simp [Reaches.refl])

/-- **The first visits are those of the recursive search.** The states in reach are listed once each,
looking ahead or not, and renamed states are listed in the same order. -/
theorem Intact.exists_firstVisits (h : a.Intact root) : ∃ order, a.FirstVisits root order := by
  obtain ⟨⟨order, left⟩, hd⟩ := h.exists_depthFirst
  have ho := preorder_of_depthFirst hd
  exact ⟨order, {
    preorder_eq := ho
    preorderPruned_eq := by rw [Arena.preorderPruned_eq, ho]
    depthFirst_eq := ⟨left, hd⟩
    nodup := nodup_preorder ho
    mem_iff := mem_preorder_iff ho
    renumbers := fun hf => hf.preorder h ho }⟩

/-- Only states are reached from a state if every edge in a slot leads to one. -/
theorem Intact.of_slots (hs : a.isLive s)
    (h : ∀ i < a.slotCount, ∀ x ∈ a.get? ⟨i⟩, ∀ t ∈ x.edges.targets, a.isLive t) :
    a.Intact s := by
  rintro t ⟨w, hp⟩
  refine isLive_of_path (fun {s c t} he => ?_) hs hp
  obtain ⟨x, hx, hc⟩ := he
  exact h s.slot (slot_lt_of_get? hx) x hx t
    (List.mem_map_of_mem (EdgeTable.find?_eq_some_iff.1 hc))

/-- Three states in a tangle: a loop, two cycles, and states that others share. -/
def tangle : Arena UInt8 :=
  ⟨#[some ⟨0, false, ⟨[(1, ⟨1⟩), (2, ⟨2⟩), (3, ⟨0⟩)], by decide⟩⟩,
    some ⟨1, true, ⟨[(1, ⟨2⟩)], by decide⟩⟩,
    some ⟨2, false, ⟨[(1, ⟨1⟩), (2, ⟨0⟩)], by decide⟩⟩], [], 3, 3⟩

/-- The same tangle, each state in the slot before its own. -/
def tangleMoved : Arena UInt8 :=
  ⟨#[some ⟨1, true, ⟨[(1, ⟨1⟩)], by decide⟩⟩,
    some ⟨2, false, ⟨[(1, ⟨0⟩), (2, ⟨2⟩)], by decide⟩⟩,
    some ⟨0, false, ⟨[(1, ⟨0⟩), (2, ⟨1⟩), (3, ⟨2⟩)], by decide⟩⟩], [], 3, 3⟩

theorem tangle_intact : tangle.Intact ⟨0⟩ := .of_slots (by decide) (by decide)

theorem slot_lt_of_reaches_tangle (h : tangle.Reaches ⟨0⟩ s) : s.slot < 3 := by
  obtain ⟨x, hx⟩ := isLive_iff.1 (tangle_intact s h)
  exact slot_lt_of_get? hx

theorem tangle_renumbers : tangle.Renumbers tangleMoved ⟨0⟩ fun s => ⟨(s.slot + 2) % 3⟩ where
  inj {s t} hs ht he := by
    have hs := slot_lt_of_reaches_tangle hs
    have ht := slot_lt_of_reaches_tangle ht
    have he := StateId.mk.inj he
    cases s
    cases t
    simp only at hs ht he
    exact congrArg StateId.mk (by omega)
  state {s x} hs hx := by
    have hlt := slot_lt_of_reaches_tangle hs
    obtain ⟨i⟩ := s
    match i, hlt with
    | 0, _ | 1, _ | 2, _ =>
      cases hx
      exact ⟨_, rfl, rfl, rfl⟩

theorem tangle_firstVisits :
    ∃ order, tangle.FirstVisits ⟨0⟩ order ∧ order = [⟨0⟩, ⟨1⟩, ⟨2⟩] ∧
      tangleMoved.preorder ⟨2⟩ = .ok [⟨2⟩, ⟨0⟩, ⟨1⟩] := by
  obtain ⟨order, h⟩ := Intact.exists_firstVisits tangle_intact
  obtain rfl : order = [⟨0⟩, ⟨1⟩, ⟨2⟩] := by
    have hrun : tangle.preorder ⟨0⟩ = .ok [⟨0⟩, ⟨1⟩, ⟨2⟩] := by cbv
    exact Except.ok.inj (h.preorder_eq.symm.trans hrun)
  exact ⟨_, h, rfl, h.renumbers tangle_renumbers⟩

/-! ## The states as they are left -/

/-- Where the states in reach can be listed, children first, there is no cycle. -/
theorem Topological.acyclic (h : a.Topological root order) : a.Acyclic root := by
  have hle : ∀ {s t : StateId} {w : Word σ}, a.Reaches root s → a.Path s w t →
      order.idxOf t + w.length ≤ order.idxOf s := by
    intro s t w hs hp
    induction w generalizing s with
    | nil => simp [path_nil_iff.1 hp]
    | cons c w ih =>
      obtain ⟨u, he, hp⟩ := path_cons_iff_edge.1 hp
      have := h.idxOf_lt hs he
      have := ih (hs.trans he.reaches) hp
      rw [List.length_cons]
      omega
  intro t w ht hp
  have := hle ht hp
  exact List.length_eq_zero_iff.1 (by omega)

/-- The states in reach as a search is done with them, and whether it met a cycle. -/
structure Departures (a : Arena σ) (root : StateId) (post : Postorder) : Prop where
  postorder_eq : a.postorder root = .ok post
  postorderPruned_eq : a.postorderPruned root = .ok post
  depthFirst_eq : ∃ met, a.depthFirst root = some ⟨met, post.order⟩
  nodup : post.order.Nodup
  mem_iff : ∀ {s}, s ∈ post.order ↔ a.Reaches root s
  isAcyclic_iff : post.isAcyclic ↔ a.Acyclic root
  children_first : post.isAcyclic → ∀ {l₁ s l₂}, post.order = l₁ ++ s :: l₂ →
    ∀ {c t}, a.Edge s c t → t ∈ l₁

/-- The flag of a search tells whether there is a cycle. -/
theorem isAcyclic_iff_of_postorder (h : a.Intact root) (hp : a.postorder root = .ok post) :
    post.isAcyclic ↔ a.Acyclic root := by
  obtain ⟨order, isAcyclic⟩ := post
  constructor
  · intro hflag
    obtain rfl : isAcyclic = true := hflag
    exact (topological_of_postorder hp).acyclic
  · intro hacyclic
    obtain ⟨order', hp', -⟩ := Dag.exists_postorder ⟨h, hacyclic⟩
    rw [hp] at hp'
    cases hp'
    rfl

/-- **A search leaves the states in reach once each, as the recursive search does, and tells rightly
whether there is a cycle.** If there is none, every state is left after all its children. -/
theorem Intact.exists_departures (h : a.Intact root) : ∃ post, a.Departures root post := by
  obtain ⟨⟨met, left⟩, hd⟩ := h.exists_depthFirst
  obtain ⟨isAcyclic, hp⟩ := postorder_of_depthFirst hd
  have ho := preorder_of_depthFirst hd
  have hperm := perm_of_depthFirst hd
  exact ⟨⟨left, isAcyclic⟩, {
    postorder_eq := hp
    postorderPruned_eq := by rw [Arena.postorderPruned_eq, hp]
    depthFirst_eq := ⟨met, hd⟩
    nodup := hperm.nodup_iff.2 (nodup_preorder ho)
    mem_iff := hperm.mem_iff.trans (mem_preorder_iff ho)
    isAcyclic_iff := isAcyclic_iff_of_postorder h hp
    children_first := by
      intro hflag
      obtain rfl : isAcyclic = true := hflag
      exact (topological_of_postorder hp).children_first }⟩

theorem tangle_departures :
    ∃ post, tangle.Departures ⟨0⟩ post ∧ post = ⟨[⟨2⟩, ⟨1⟩, ⟨0⟩], false⟩ ∧ ¬tangle.Acyclic ⟨0⟩ := by
  obtain ⟨post, h⟩ := Intact.exists_departures tangle_intact
  obtain rfl : post = ⟨[⟨2⟩, ⟨1⟩, ⟨0⟩], false⟩ := by
    have hrun : tangle.postorder ⟨0⟩ = .ok ⟨[⟨2⟩, ⟨1⟩, ⟨0⟩], false⟩ := by cbv
    exact Except.ok.inj (h.postorder_eq.symm.trans hrun)
  exact ⟨_, h, rfl, fun hacyclic => Bool.false_ne_true (h.isAcyclic_iff.2 hacyclic)⟩

end WordGraph.Arena
