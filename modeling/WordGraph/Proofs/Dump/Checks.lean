import WordGraph.Proofs.Arena.Preorder
import WordGraph.Proofs.Automaton.Sound
import WordGraph.Proofs.Dump.Graph
import WordGraph.Proofs.Run

/-!
# What the checks of a dump find

Each check of a load is passed just if what it checks is the case. The lemmas say so in terms of the
graph, so that neither what a load answers nor what it takes has to be found by looking into a check.

* `checkGraph_eq_ok_iff`, `checkCounts_eq_ok_iff` — the graph and the counts
* `spell_eq_ok_iff`, `path_eq_ok_iff` — the path of the last word
* `registerAll_ok`, `exists_registerAll` — registering all states that are not kept apart
* `Lexicon.ofContents_eq_ok_iff` — all checks together
-/

namespace WordGraph

open Arena Automaton

variable {σ : Type} [Symbol σ]

namespace Dump

variable {a : Arena σ} {s t : StateId} {c : σ} {nodes : List Node} {edges : List (Edge σ)}
  {k : Contents σ} {n : Numbering} {order ss : List StateId} {path p : List (σ × StateId)}
  {w : Word σ} {apart : Array Bool} {r r' : Register σ} {f : Fingerprint σ}

/-! ## The graph and the counts -/

/-- The slots of an arena in order. -/
def slotsOf (a : Arena σ) : List StateId := (List.range a.slotCount).map StateId.mk

theorem mem_slotsOf_iff : s ∈ slotsOf a ↔ s.slot < a.slotCount := by
  obtain ⟨i⟩ := s
  simp [slotsOf]

theorem checkGraph_eq_ok_iff : checkGraph a = .ok order ↔
    a.postorder ⟨0⟩ = .ok ⟨order, true⟩ ∧ a.preorder ⟨0⟩ = .ok (slotsOf a) := by
  unfold checkGraph
  simp only [bind_eq_ok_iff, guard_eq_ok_iff, refuse_eq_ok_iff, liftM_eq_ok_iff, ne_eq, not_not]
  constructor
  · rintro ⟨⟨post, _⟩, hpost, rfl, pre, hpre, -, hslots, hout⟩
    cases hout
    rw [slotsOf, ← hslots]
    exact ⟨hpost, hpre⟩
  · rintro ⟨hpost, hpre⟩
    exact ⟨_, hpost, rfl, _, hpre, by simp [slotsOf], rfl, rfl⟩

theorem checkCounts_eq_ok_iff {i : Nat} : checkCounts n i nodes = .ok () ↔
    ∀ j node, nodes[j]? = some node →
      n.count ⟨i + j⟩ = node.count ∧ (node.count = 0 → i + j = 0) := by
  induction nodes generalizing i with
  | nil => simp [checkCounts]
  | cons node nodes ih =>
    -- the first position of the rest is the next one
    have hrest : (∀ j m, nodes[j]? = some m →
        n.count ⟨i + 1 + j⟩ = m.count ∧ (m.count = 0 → i + 1 + j = 0)) ↔
        ∀ j m, (node :: nodes)[j + 1]? = some m →
          n.count ⟨i + (j + 1)⟩ = m.count ∧ (m.count = 0 → i + (j + 1) = 0) := by
      simp only [List.getElem?_cons_succ, Nat.add_assoc, Nat.add_comm 1]
    have hall : (∀ j m, (node :: nodes)[j]? = some m →
        n.count ⟨i + j⟩ = m.count ∧ (m.count = 0 → i + j = 0)) ↔
        (n.count ⟨i⟩ = node.count ∧ (node.count = 0 → i = 0)) ∧
          ∀ j m, (node :: nodes)[j + 1]? = some m →
            n.count ⟨i + (j + 1)⟩ = m.count ∧ (m.count = 0 → i + (j + 1) = 0) := by
      constructor
      · exact fun h => ⟨h 0 node rfl, fun j => h (j + 1)⟩
      · rintro ⟨h₀, hs⟩ (_ | j) m hm
        · cases hm
          exact h₀
        · exact hs j m hm
    rw [hall, ← hrest, ← ih, checkCounts]
    split
    · next hne => simp [hne]
    · next heq =>
      rw [not_not] at heq
      split
      · next hz =>
        simp only [reduceCtorEq, false_iff, not_and]
        exact fun h => absurd (h.2 hz.1) hz.2
      · next hz =>
        rw [and_iff_right]
        refine ⟨heq, fun h₀ => ?_⟩
        by_contra hi
        exact hz ⟨h₀, hi⟩

/-! ## The path of the last word -/

theorem spell_eq_ok_iff : spell a edges path s w = .ok p ↔
    ∃ new, p = path.reverse ++ new ∧ new.map Prod.fst = w ∧
      (∀ l ∈ links s new, a.Edge l.1 l.2.1 l.2.2) ∧
      (∀ t ∈ new.map Prod.snd, inDegree edges t = 1) ∧ a.Accepts (endOf s new) [] := by
  induction w generalizing path s with
  | nil =>
    rw [spell]
    simp only [bind_eq_ok_iff, guard_eq_ok_iff, liftM_eq_ok_iff, state_eq_ok_iff,
      List.map_eq_nil_iff]
    constructor
    · rintro ⟨x, hx, hf, hp⟩
      cases hp
      exact ⟨[], by simp, rfl, by simp [links], by simp, (accepts_nil_iff_of_get? hx).2 hf⟩
    · rintro ⟨new, rfl, rfl, -, -, hend⟩
      obtain ⟨x, hx, hf⟩ := accepts_nil_iff.1 hend
      exact ⟨x, hx, hf, by simp [pure, Except.pure]⟩
  | cons c w ih =>
    rw [spell]
    simp only [bind_eq_ok_iff, liftM_eq_ok_iff]
    constructor
    · rintro ⟨t?, ht, h⟩
      cases t? with
      | none => cases h
      | some t =>
        obtain ⟨x, hx, hc⟩ := target?_eq_ok_some_iff.1 ht
        dsimp only at h
        split at h
        · next hdeg =>
          obtain ⟨new, rfl, rfl, hlinks, hdegs, hend⟩ := ih.1 h
          refine ⟨(c, t) :: new, by simp, rfl, ?_, ?_, by rwa [endOf_cons]⟩
          · exact List.forall_mem_cons.2 ⟨⟨x, hx, hc⟩, hlinks⟩
          · exact List.forall_mem_cons.2 ⟨hdeg, hdegs⟩
        · cases h
    · rintro ⟨_ | ⟨⟨d, t⟩, new⟩, rfl, hw, hlinks, hdegs, hend⟩
      · cases hw
      · cases hw
        obtain ⟨⟨x, hx, hc⟩, hlinks⟩ := List.forall_mem_cons.1 hlinks
        obtain ⟨hdeg, hdegs⟩ := List.forall_mem_cons.1 hdegs
        rw [endOf_cons] at hend
        refine ⟨some t, target?_eq_ok_some_iff.2 ⟨x, hx, hc⟩, ?_⟩
        dsimp only
        rw [if_pos hdeg]
        exact ih.2 ⟨new, by simp, rfl, hlinks, hdegs, hend⟩

/-- The path of the last word of contents agrees with where they are in their life. -/
theorem path_eq_ok_iff : k.path a = .ok p ↔
    match k.lifecycle with
    | .empty => p = [] ∧ k.nodes.length = 1 ∧ k.edges = [] ∧ a.isLive ⟨0⟩ ∧ ¬a.Accepts ⟨0⟩ []
    | .active => p.map Prod.fst = k.frontier ∧
        (∀ l ∈ links ⟨0⟩ p, a.Edge l.1 l.2.1 l.2.2) ∧
        (∀ t ∈ p.map Prod.snd, inDegree k.edges t = 1) ∧ a.Accepts (endOf ⟨0⟩ p) []
    | .closed => p = [] := by
  unfold Contents.path
  cases k.lifecycle with
  | empty =>
    simp only [bind_eq_ok_iff, refuse_eq_ok_iff, liftM_eq_ok_iff, state_eq_ok_iff, not_or, not_not,
      ne_eq]
    constructor
    · rintro ⟨x, hx, ⟨hn, he, hf⟩, hp⟩
      cases hp
      exact ⟨rfl, hn, he, isLive_of_get? hx, fun h => hf ((accepts_nil_iff_of_get? hx).1 h)⟩
    · rintro ⟨rfl, hn, he, hlive, hf⟩
      obtain ⟨x, hx⟩ := isLive_iff.1 hlive
      exact ⟨x, hx, ⟨hn, he, fun h => hf ((accepts_nil_iff_of_get? hx).2 h)⟩, rfl⟩
  | active =>
    dsimp only
    rw [spell_eq_ok_iff]
    simp
  | closed => simp [pure, Except.pure, eq_comm]

/-! ## Registering -/

theorem getElem?_marked {m i : Nat} (hi : i < m) :
    ((marked m ss)[i]?).getD false = true ↔ ⟨i⟩ ∈ ss := by
  unfold marked
  have hfold : ∀ (ss : List StateId) (marks : Array Bool), marks.size = m →
      (((ss.foldl (fun marks s => marks.setIfInBounds s.slot true) marks)[i]?).getD false = true ↔
        (marks[i]?).getD false = true ∨ ⟨i⟩ ∈ ss) := by
    intro ss
    induction ss with
    | nil => simp
    | cons s ss ih =>
      intro marks hsize
      rw [List.foldl_cons, ih _ (by rw [Array.size_setIfInBounds, hsize]), List.mem_cons,
        ← or_assoc]
      refine or_congr_left ?_
      obtain ⟨j⟩ := s
      by_cases hij : j = i
      · subst hij
        simp [hsize, hi]
      · rw [Array.getElem?_setIfInBounds_ne hij, or_iff_left]
        simpa [eq_comm] using hij
  rw [hfold ss _ (by simp)]
  simp [hi]

/-- One state is registered. -/
theorem insert_new_iff : r.insert a s = .ok (true, r') →
    ∃ x, a.get? s = some x ∧ r.get? x.fingerprint = none ∧
      ∀ q, r'.get? q = if q = x.fingerprint then some s else r.get? q := by
  intro h
  obtain ⟨q, hq, hnew, hget⟩ := Register.get?_of_insert h
  obtain ⟨x, hx, rfl, -⟩ := Register.kind_eq_ok_iff.1 hq
  have hnone : r.get? x.fingerprint = none := by simpa using hnew.symm
  refine ⟨x, hx, hnone, fun q => ?_⟩
  rw [hget]
  split
  · next he => rw [he, hnone]; rfl
  · rfl

/-- Registers a state unless it is kept apart. -/
def registerStep (a : Arena σ) (apart : Array Bool) (r : Register σ) (s : StateId) :
    Except (Error σ) (Register σ) := do
  if (apart[s.slot]?).getD false then return r
  let (isNew, r) ← r.insert a s
  unless isNew do throw (.format (.notMinimal s.slot))
  return r

theorem registerAll_eq (a : Arena σ) (apart : Array Bool) (order : List StateId) :
    registerAll a apart order = order.foldlM (registerStep a apart) ∅ := rfl

theorem registerStep_eq_ok_iff : registerStep a apart r s = .ok r' ↔
    if (apart[s.slot]?).getD false then r' = r else r.insert a s = .ok (true, r') := by
  unfold registerStep
  split
  · simp [pure, Except.pure, eq_comm]
  · simp only [bind_eq_ok_iff, guard_eq_ok_iff, liftM_eq_ok_iff]
    constructor
    · rintro ⟨⟨isNew, r₁⟩, hins, hnew, hr⟩
      cases hr
      cases hnew
      exact hins
    · exact fun hins => ⟨_, hins, rfl, rfl⟩

/-- A register holds the states with a property under their kinds, and no others. -/
structure Registers (a : Arena σ) (p : StateId → Prop) (r : Register σ) : Prop where
  of_get? : ∀ {f t}, r.get? f = some t → p t ∧ ∃ x, a.get? t = some x ∧ x.fingerprint = f
  get? : ∀ {t x}, p t → a.get? t = some x → r.get? x.fingerprint = some t

theorem Registers.empty (a : Arena σ) : Registers a (fun _ => False) ∅ where
  of_get? h := by
    rw [Register.get?_empty] at h
    cases h
  get? h := h.elim

theorem Registers.congr {p q : StateId → Prop} (h : Registers a p r) (hpq : ∀ t, p t ↔ q t) :
    Registers a q r := by
  rw [← funext fun t => propext (hpq t)]
  exact h

/-- A state whose kind is new is registered beside the others. -/
theorem Registers.insert {p : StateId → Prop} (h : Registers a p r)
    (hins : r.insert a s = .ok (true, r')) : Registers a (fun t => p t ∨ t = s) r' := by
  obtain ⟨x, hx, hnone, hget⟩ := insert_new_iff hins
  refine ⟨fun {f t} hf => ?_, fun {t y} ht hy => ?_⟩
  · rw [hget] at hf
    split at hf
    · next he =>
      cases hf
      exact ⟨.inr rfl, x, hx, he.symm⟩
    · obtain ⟨hp, hy⟩ := h.of_get? hf
      exact ⟨.inl hp, hy⟩
  · rw [hget]
    rcases ht with ht | rfl
    · have hreg := h.get? ht hy
      split
      · next he =>
        rw [he, hnone] at hreg
        cases hreg
      · exact hreg
    · rw [hx] at hy
      cases hy
      rw [if_pos rfl]

/-- A step registers its state beside the others unless the state is kept apart. -/
theorem Registers.step {p : StateId → Prop} (h : Registers a p r)
    (hstep : registerStep a apart r s = .ok r') :
    Registers a (fun t => p t ∨ t = s ∧ ¬(apart[t.slot]?).getD false = true) r' := by
  rw [registerStep_eq_ok_iff] at hstep
  split at hstep
  · next hs =>
    subst hstep
    refine h.congr fun t => ?_
    rw [or_iff_left]
    rintro ⟨rfl, hnot⟩
    exact hnot hs
  · next hs =>
    refine (h.insert hstep).congr fun t => or_congr_right ⟨?_, And.left⟩
    rintro rfl
    exact ⟨rfl, hs⟩

/-- A state can be asked for its kind once its children are registered. -/
theorem Registers.kind_eq {p : StateId → Prop} (h : Registers a p r) (hp : ∀ t, p t → a.isLive t)
    {x : State σ} (hx : a.get? s = some x) (hchild : ∀ c t, a.Edge s c t → p t) :
    r.kind a s = .ok x.fingerprint := by
  refine Register.kind_eq_ok_iff.2 ⟨x, hx, rfl, fun t ht => ?_⟩
  obtain ⟨⟨c, t⟩, he, rfl⟩ := List.mem_map.1 ht
  have ht := hchild c t ((edge_iff_mem hx).2 he)
  obtain ⟨y, hy⟩ := isLive_iff.1 (hp t ht)
  exact ⟨y, hy, h.get? ht hy⟩

/-- **Registering all states registers those that are not kept apart.** -/
theorem registerAll_ok (h : registerAll a apart order = .ok r) :
    Registers a (fun t => t ∈ order ∧ ¬(apart[t.slot]?).getD false = true) r := by
  rw [registerAll_eq] at h
  suffices hfold : ∀ (order : List StateId) (q : StateId → Prop) (r₁ : Register σ),
      Registers a q r₁ → order.foldlM (registerStep a apart) r₁ = .ok r →
      Registers a (fun t => q t ∨ t ∈ order ∧ ¬(apart[t.slot]?).getD false = true) r by
    exact (hfold order _ _ (.empty a) h).congr fun t => by rw [false_or]
  intro order
  induction order with
  | nil =>
    intro q r₁ hq h
    cases h
    exact hq.congr fun t => by simp
  | cons s order ih =>
    intro q r₁ hq h
    rw [List.foldlM_cons, bind_eq_ok_iff] at h
    obtain ⟨r₂, hstep, h⟩ := h
    refine (ih _ r₂ (hq.step hstep) h).congr fun t => ?_
    rw [or_assoc, List.mem_cons, or_and_right]

/-- Registering one more state works if its children are registered and no state of its kind is, unless
it is kept apart. -/
theorem exists_registerStep {p : StateId → Prop} {r₁ : Register σ} (hreg : Registers a p r₁)
    (hp : ∀ t, p t → a.isLive t) (hx : a.get? s = some x)
    (hstep : (apart[s.slot]?).getD false = false →
      (∀ c t, a.Edge s c t → p t) ∧ r₁.get? x.fingerprint = none) :
    ∃ r₂, registerStep a apart r₁ s = .ok r₂ ∧
      Registers a (fun t => p t ∨ t = s ∧ ¬(apart[t.slot]?).getD false = true) r₂ := by
  suffices hsome : ∃ r₂, registerStep a apart r₁ s = .ok r₂ from
    hsome.imp fun r₂ hr => ⟨hr, hreg.step hr⟩
  by_cases hapart : (apart[s.slot]?).getD false = true
  · exact ⟨r₁, registerStep_eq_ok_iff.2 (by rw [if_pos hapart])⟩
  · obtain ⟨hchild, hnone⟩ := hstep (Bool.not_eq_true _ ▸ hapart)
    have hkind := hreg.kind_eq hp hx hchild
    have hnot : r₁.classes.contains x.fingerprint = false := by
      rw [← Std.HashMap.isSome_getElem?_eq_contains]
      show (r₁.get? x.fingerprint).isSome = false
      rw [hnone]
      rfl
    have hins : r₁.insert a s = .ok (true, ⟨r₁.classes.insert x.fingerprint s⟩) := by
      simp [Register.insert, hkind, hnot, bind, Except.bind, pure, Except.pure]
    exact ⟨_, registerStep_eq_ok_iff.2 (by rw [if_neg hapart]; exact hins)⟩

/-- Registering all states works if the children of those that are not kept apart come first and are
not kept apart either, and no two of them are of one kind. -/
theorem exists_registerAll {q : StateId → Prop} (hq : ∀ t, q t ↔ ¬(apart[t.slot]?).getD false = true)
    (hlive : ∀ s ∈ order, a.isLive s)
    (hfirst : ∀ {l₁ s l₂}, order = l₁ ++ s :: l₂ → ∀ {c t}, a.Edge s c t → t ∈ l₁)
    (hchild : ∀ {s c t}, q s → a.Edge s c t → q t) (hnd : order.Nodup)
    (hkind : ∀ {s t x y}, s ∈ order → t ∈ order → q s → q t → a.get? s = some x →
      a.get? t = some y → x.fingerprint = y.fingerprint → s = t) :
    ∃ r, registerAll a apart order = .ok r := by
  rw [registerAll_eq]
  suffices hfold : ∀ (rest done : List StateId) (r₁ : Register σ), order = done ++ rest →
      Registers a (fun t => t ∈ done ∧ q t) r₁ →
      ∃ r, rest.foldlM (registerStep a apart) r₁ = .ok r from
    hfold order [] ∅ rfl ((Registers.empty a).congr fun t => by simp)
  intro rest
  induction rest with
  | nil => exact fun _ r₁ _ _ => ⟨r₁, rfl⟩
  | cons s rest ih =>
    intro done r₁ hsplit hreg
    have hmem : ∀ t ∈ done, t ∈ order := by
      intro t ht
      rw [hsplit]
      exact List.mem_append_left _ ht
    have hs : s ∈ order := by
      rw [hsplit]
      exact List.mem_append_right _ (List.mem_cons_self ..)
    have hdone : s ∉ done := by
      rw [hsplit, List.nodup_append] at hnd
      exact fun hm => hnd.2.2 s hm s (List.mem_cons_self ..) rfl
    obtain ⟨x, hx⟩ := isLive_iff.1 (hlive s hs)
    have hnew : (apart[s.slot]?).getD false = false →
        (∀ c t, a.Edge s c t → t ∈ done ∧ q t) ∧ r₁.get? x.fingerprint = none := by
      intro hapart
      have hqs := (hq s).2 (by rw [hapart]; decide)
      refine ⟨fun c t he => ⟨hfirst hsplit he, hchild hqs he⟩, ?_⟩
      rw [Option.eq_none_iff_forall_ne_some]
      intro t ht
      obtain ⟨⟨hm, hqt⟩, y, hy, hf⟩ := hreg.of_get? ht
      exact hdone (hkind hs (hmem t hm) hqs hqt hx hy hf.symm ▸ hm)
    obtain ⟨r₂, hstep, hreg₂⟩ :=
      exists_registerStep hreg (fun t ht => hlive t (hmem t ht.1)) hx hnew
    rw [List.foldlM_cons, hstep, ok_bind]
    refine ih (done ++ [s]) r₂ (by simp [hsplit]) (hreg₂.congr fun t => ?_)
    rw [List.mem_append, List.mem_singleton, or_and_right, ← hq]

/-- The states whose kinds are not compared with those of others: those on the path of the last
word. -/
def Contents.setApart (k : Contents σ) (path : List (σ × StateId)) : List StateId :=
  path.map Prod.snd ++ if k.lifecycle = .closed then [] else [⟨0⟩]

end Dump

/-! ## All checks -/

/-- **Contents are loaded just if all checks are passed.** -/
theorem Lexicon.ofContents_eq_ok_iff {l : Lexicon σ} {k : Dump.Contents σ} {identity : Nat} :
    (Lexicon.ofContents identity k).result = .ok l ↔
      ∃ a order n lengths path register, k.arena = .ok a ∧ Dump.checkGraph a = .ok order ∧
        Numbering.compute a ⟨0⟩ = .ok (some n) ∧ Dump.checkCounts n 0 k.nodes = .ok () ∧
        n.count ⟨0⟩ = k.words ∧ a.longestPaths order = .ok lengths ∧
        ((lengths[0]?).join).getD 0 = k.longest ∧ k.path a = .ok path ∧
        Dump.registerAll a (Dump.marked a.slotCount (k.setApart path)) order = .ok register ∧
        l = ofAutomaton identity ⟨a, register, ⟨0⟩, path⟩ k.words k.longest k.lifecycle := by
  unfold Lexicon.ofContents
  simp only [Run.result_bind, bind_eq_ok_iff, Run.result_liftM_eq_ok_iff,
    Run.result_liftM_error_eq_ok_iff]
  constructor
  · rintro ⟨a, ha, order, ho, n?, hn, h⟩
    cases n? with
    | none => cases h
    | some n =>
      simp only [Run.result_bind, bind_eq_ok_iff, Run.result_liftM_format_eq_ok_iff,
        Run.result_note, Run.result_guard_eq_ok_iff, Run.result_liftM_eq_ok_iff,
        Run.result_liftM_error_eq_ok_iff] at h
      obtain ⟨_, -, _, hcounts, hw, lengths, hl, hlong, path, hp, register, hr, _, -, h⟩ := h
      cases h
      exact ⟨a, order, n, lengths, path, register, ha, ho, hn, hcounts, hw, hl, hlong, hp, hr, rfl⟩
  · rintro ⟨a, order, n, lengths, path, register, ha, ho, hn, hcounts, hw, hl, hlong, hp, hr, rfl⟩
    refine ⟨a, ha, order, ho, some n, hn, ?_⟩
    simp only [Run.result_bind, bind_eq_ok_iff, Run.result_liftM_format_eq_ok_iff,
      Run.result_note, Run.result_guard_eq_ok_iff, Run.result_liftM_eq_ok_iff,
      Run.result_liftM_error_eq_ok_iff]
    exact ⟨(), trivial, (), hcounts, hw, lengths, hl, hlong, path, hp, register, hr, (), trivial,
      rfl⟩

end WordGraph
