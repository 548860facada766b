import WordGraph.Dump.Read
import WordGraph.Proofs.Arena.Postorder

/-!
# The graph that contents describe

If the edges of contents lead between their nodes and no two of them leave a node with one symbol,
the arena is made without an error. It has a state in the slot of each node, with the end of the
node, and its edges are those of the contents.

* `Described` — an arena is the one that contents describe
* `exists_arena` — contents with good edges describe an arena
-/

namespace WordGraph.Dump

open Arena

variable {σ : Type} [Symbol σ] {a a' : Arena σ} {s t : StateId} {c : σ} {nodes : List Node}
  {edges : List (Edge σ)} {k : Contents σ}

/-- The edges lead from one of so many nodes to another. -/
def Within (n : Nat) (edges : List (Edge σ)) : Prop := ∀ e ∈ edges, e.source < n ∧ e.target < n

/-- An edge comes before another one in the order of a dump: by source, and by symbol for edges of one
node. -/
def Before (e e' : Edge σ) : Prop :=
  e.source < e'.source ∨ e.source = e'.source ∧ e.symbol < e'.symbol

/-- The edges are in order. -/
def Sorted (edges : List (Edge σ)) : Prop := edges.Pairwise Before

/-- Edges in order leave a node with one symbol once at most. -/
theorem Sorted.distinct (h : Sorted edges) :
    edges.Pairwise fun e e' => ¬(e.source = e'.source ∧ e.symbol = e'.symbol) := by
  refine List.Pairwise.imp ?_ h
  rintro e e' (hlt | ⟨-, hlt⟩) ⟨hs, hc⟩
  · omega
  · exact Symbol.ne_of_lt hlt hc

theorem get?_arenaOfNodes (nodes : List Node) (i : Nat) :
    (arenaOfNodes nodes : Arena σ).get? ⟨i⟩ =
      nodes[i]?.map fun n => ⟨i, n.isFinal, ∅⟩ := by
  simp only [arenaOfNodes, Arena.get?, List.getElem?_toArray, List.getElem?_mapIdx]
  cases nodes[i]? <;> rfl

theorem tidy_arenaOfNodes (nodes : List Node) : (arenaOfNodes nodes : Arena σ).Tidy := by
  refine ⟨.nil, fun s => ?_, ?_⟩
  · obtain ⟨i⟩ := s
    rw [get?_arenaOfNodes, Option.map_eq_none_iff]
    simp [arenaOfNodes, slotCount]
  · simp [arenaOfNodes, slotCount]

theorem not_edge_arenaOfNodes (nodes : List Node) : ¬(arenaOfNodes nodes : Arena σ).Edge s c t := by
  rintro ⟨x, hx, hc⟩
  obtain ⟨i⟩ := s
  rw [get?_arenaOfNodes] at hx
  obtain ⟨n, -, rfl⟩ := Option.map_eq_some_iff.1 hx
  cases hc

/-- What is said of the edges behind the first holds with the first as well, once it is pointed. -/
theorem edge_of_setEdge_cons_iff {a a' : Arena σ} {e : Edge σ} {old : Option StateId}
    (hset : a.setEdge ⟨e.source⟩ e.symbol ⟨e.target⟩ = .ok (old, a'))
    (hnew : ∀ e' ∈ edges, ¬(e.source = e'.source ∧ e.symbol = e'.symbol)) :
    (⟨s.slot, c, t.slot⟩ ∈ edges ∨
        (∀ e' ∈ edges, ¬(e'.source = s.slot ∧ e'.symbol = c)) ∧ a'.Edge s c t) ↔
      (⟨s.slot, c, t.slot⟩ : Edge σ) ∈ e :: edges ∨
        (∀ e' ∈ e :: edges, ¬(e'.source = s.slot ∧ e'.symbol = c)) ∧ a.Edge s c t := by
  rw [edge_of_setEdge_iff hset, List.mem_cons, List.forall_mem_cons]
  obtain ⟨i⟩ := s
  obtain ⟨j⟩ := t
  by_cases hkey : e.source = i ∧ e.symbol = c
  · obtain ⟨rfl, rfl⟩ := hkey
    have hno : ⟨e.source, e.symbol, j⟩ ∉ edges := fun hm => hnew _ hm ⟨rfl, rfl⟩
    have hno' : ∀ e' ∈ edges, ¬(e'.source = e.source ∧ e'.symbol = e.symbol) :=
      fun e' he' hk => hnew e' he' ⟨hk.1.symm, hk.2.symm⟩
    simp only [hno, false_or, and_self, if_true, or_false, not_true, false_and]
    rw [and_iff_right hno', StateId.mk.injEq]
    constructor
    · rintro rfl
      rfl
    · exact fun he => congrArg Edge.target he
  · have hne : ¬((⟨i⟩ : StateId) = ⟨e.source⟩ ∧ c = e.symbol) := by
      rintro ⟨hi, rfl⟩
      exact hkey ⟨(StateId.mk.inj hi).symm, rfl⟩
    have hne' : (⟨i, c, j⟩ : Edge σ) ≠ e := by
      rintro rfl
      exact hkey ⟨rfl, rfl⟩
    rw [if_neg hne, or_iff_right hne', and_iff_right hkey]

/-- Pointing the edges of a list one after the other, where each is pointed once. -/
theorem foldlM_setEdge_spec (hlive : ∀ e ∈ edges, a.isLive ⟨e.source⟩ ∧ a.isLive ⟨e.target⟩)
    (hdist : edges.Pairwise fun e e' => ¬(e.source = e'.source ∧ e.symbol = e'.symbol))
    (htidy : a.Tidy) :
    ∃ a', (edges.foldlM (fun a e => do
        return (← a.setEdge ⟨e.source⟩ e.symbol ⟨e.target⟩).2) a : Except Fault (Arena σ)) = .ok a' ∧
      a'.Tidy ∧ a'.slotCount = a.slotCount ∧ (∀ s, a'.isLive s ↔ a.isLive s) ∧
      (∀ s, a'.Accepts s [] ↔ a.Accepts s []) ∧
      ∀ s c t, a'.Edge s c t ↔ ⟨s.slot, c, t.slot⟩ ∈ edges ∨
        (∀ e ∈ edges, ¬(e.source = s.slot ∧ e.symbol = c)) ∧ a.Edge s c t := by
  induction edges generalizing a with
  | nil => exact ⟨a, rfl, htidy, rfl, fun _ => Iff.rfl, fun _ => Iff.rfl, fun s c t => by simp⟩
  | cons e edges ih =>
    obtain ⟨⟨hsource, htarget⟩, hlive⟩ := List.forall_mem_cons.1 hlive
    obtain ⟨hnew, hdist⟩ := List.pairwise_cons.1 hdist
    obtain ⟨x, hx⟩ := isLive_iff.1 hsource
    obtain ⟨a₁, hset⟩ : ∃ a₁, a.setEdge ⟨e.source⟩ e.symbol ⟨e.target⟩ =
        .ok (x.edges.find? e.symbol, a₁) :=
      ⟨_, setEdge_eq_ok_iff.2 ⟨htarget, x, hx, rfl, rfl⟩⟩
    obtain ⟨y, hy, hget⟩ := get?_of_setEdge hset
    obtain ⟨a', hrun, htidy', hcount, hlive', hend, hedge⟩ := ih (a := a₁)
      (fun e' he' => by
        rw [isLive_of_setEdge_iff hset, isLive_of_setEdge_iff hset]
        exact hlive e' he') hdist (htidy.setEdge hset)
    refine ⟨a', ?_, htidy', ?_, fun s => ?_, fun s => ?_, fun s c t => ?_⟩
    · rw [List.foldlM_cons, hset]
      exact hrun
    · rw [hcount]
      obtain ⟨-, z, -, -, rfl⟩ := setEdge_eq_ok_iff.1 hset
      exact slotCount_put ..
    · rw [hlive', isLive_of_setEdge_iff hset]
    · rw [hend, accepts_nil_iff, accepts_nil_iff, hget]
      by_cases hs : s = ⟨e.source⟩
      · simp [hs, hy]
      · rw [if_neg hs]
    · rw [hedge]
      exact edge_of_setEdge_cons_iff hset hnew

/-- An arena is the one that nodes and edges describe. -/
structure Described (nodes : List Node) (edges : List (Edge σ)) (a : Arena σ) : Prop where
  tidy : a.Tidy
  slotCount_eq : a.slotCount = nodes.length
  isLive_iff : ∀ {s}, a.isLive s ↔ s.slot < nodes.length
  end_iff : ∀ {s}, a.Accepts s [] ↔ ∃ n, nodes[s.slot]? = some n ∧ n.isFinal
  edge_iff : ∀ {s c t}, a.Edge s c t ↔ ⟨s.slot, c, t.slot⟩ ∈ edges

/-- **Contents with good edges describe an arena.** -/
theorem exists_arena (hw : Within k.nodes.length k.edges) (hs : Sorted k.edges) :
    ∃ a, k.arena = .ok a ∧ Described k.nodes k.edges a := by
  have hlive : ∀ s : StateId, (arenaOfNodes k.nodes : Arena σ).isLive s ↔
      s.slot < k.nodes.length := by
    intro s
    obtain ⟨i⟩ := s
    simp [Arena.isLive, get?_arenaOfNodes]
  have hends : ∀ e ∈ k.edges, (arenaOfNodes k.nodes : Arena σ).isLive ⟨e.source⟩ ∧
      (arenaOfNodes k.nodes : Arena σ).isLive ⟨e.target⟩ :=
    fun e he => ⟨(hlive _).2 (hw e he).1, (hlive _).2 (hw e he).2⟩
  obtain ⟨a, hrun, htidy, hcount, hlive', hend, hedge⟩ :=
    foldlM_setEdge_spec hends hs.distinct (tidy_arenaOfNodes k.nodes)
  refine ⟨a, hrun, htidy, ?_, fun {s} => by rw [hlive', hlive], fun {s} => ?_, fun {s c t} => ?_⟩
  · rw [hcount]
    simp [arenaOfNodes, slotCount]
  · obtain ⟨i⟩ := s
    rw [hend, accepts_nil_iff, get?_arenaOfNodes]
    cases k.nodes[i]? <;> simp
  · rw [hedge, or_iff_left fun he => not_edge_arenaOfNodes _ he.2]

namespace Described

variable (h : Described nodes edges a)

include h

theorem edge_live (hw : Within nodes.length edges) (he : a.Edge s c t) : a.isLive t :=
  h.isLive_iff.2 (hw _ (h.edge_iff.1 he)).2

end Described

end WordGraph.Dump
