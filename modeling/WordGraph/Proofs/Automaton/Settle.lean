import WordGraph.Proofs.Arena.History
import WordGraph.Proofs.Automaton.History
import WordGraph.Proofs.Automaton.Sound

/-!
# Settling the end of the path

The last state of the path is settled in one of two ways: it is registered, or the edge that leads
to it is moved to the registered state of its kind and it is deleted. Either way the path can still be
settled where it is one state shorter, and the states that are left accept what they accepted.

* `initial_growing` — the automaton that growth starts from
* `Settleable.register_last`, `Mergeable.settleable_merged` — one state is settled
* `Settleable.settleLoop_spec` — settling runs through for any part of the path
* `Settleable.settle_spec` — the same for `settle`
* `Growing.settle_spec` — a growing automaton goes on growing
-/

namespace WordGraph.Automaton

open Arena

variable {σ : Type} [Symbol σ] {g g' g'' : Automaton σ} {root r s t u v : StateId} {c d : σ}
  {p q : List (σ × StateId)} {w : Word σ} {x y : State σ}

/-- An automaton that grows: the shape between two steps, with a productive path off the register. -/
structure Growing (g : Automaton σ) : Prop extends g.Sound where
  isOpen : g.Open
  productive : g.Productive

theorem get?_initial :
    (initial : Automaton σ).arena.get? s = if s = ⟨0⟩ then some ⟨0, false, ∅⟩ else none := by
  obtain ⟨slot⟩ := s
  cases slot <;> simp [initial, Arena.get?]

theorem not_edge_initial : ¬(initial : Automaton σ).arena.Edge s c t := by
  rintro ⟨x, hx, hc⟩
  rw [get?_initial] at hx
  split at hx
  · cases hx
    cases hc
  · cases hx

/-- The initial automaton accepts nothing. -/
theorem not_accepts_initial : ¬(initial : Automaton σ).arena.Accepts s w := by
  cases w with
  | nil =>
    rintro ⟨u, x, -, hx, hf⟩
    rw [get?_initial] at hx
    split at hx
    · cases hx
      cases hf
    · cases hx
  | cons c w =>
    rw [accepts_cons_iff]
    rintro ⟨t, he, -⟩
    exact not_edge_initial he

theorem pathStates_initial : (initial : Automaton σ).pathStates = [⟨0⟩] := rfl

/-- The initial automaton can grow. -/
theorem initial_growing : (initial : Automaton σ).Growing where
  tidy := by
    refine ⟨.nil, fun s => ?_, rfl⟩
    rw [get?_initial]
    obtain ⟨slot⟩ := s
    cases slot <;> simp [initial, slotCount]
  root_live := isLive_iff.2 ⟨_, get?_initial.trans (if_pos rfl)⟩
  edge_live he := absurd he not_edge_initial
  ranked := ⟨fun _ => 0, fun he => absurd he not_edge_initial⟩
  edge_iff _ := ⟨fun he => absurd he not_edge_initial, fun hl => nomatch hl⟩
  of_register hr := by
    rw [show (initial : Automaton σ).register = ∅ from rfl, Register.get?_empty] at hr
    cases hr
  registered hx ht := by
    rw [pathStates_initial, List.mem_singleton] at ht
    rw [get?_initial, if_neg ht] at hx
    cases hx
  accepts ht hmem := by
    obtain ⟨x, hx⟩ := isLive_iff.1 ht
    rw [pathStates_initial, List.mem_singleton] at hmem
    rw [get?_initial, if_neg hmem] at hx
    cases hx
  isOpen p t hr := by
    rw [show (initial : Automaton σ).register = ∅ from rfl, Register.get?_empty] at hr
    cases hr
  productive hne := absurd rfl hne

/-- The one state of the initial automaton is its start state. -/
theorem initial_trim : (initial : Automaton σ).Trim := by
  intro t ht
  obtain ⟨x, hx⟩ := isLive_iff.1 ht
  rw [get?_initial] at hx
  split at hx
  · next ht => exact ht ▸ .refl _
  · cases hx

/-- What settling leaves as it is: states go but none comes, those that stay accept what they
accepted, words lead from one to another as they did, and registered states are untouched. -/
structure Settled (g g' : Automaton σ) : Prop where
  root_eq : g'.root = g.root
  isLive : ∀ {t}, g'.arena.isLive t → g.arena.isLive t
  accepts_iff : ∀ {t w}, g'.arena.isLive t → (g'.arena.Accepts t w ↔ g.arena.Accepts t w)
  path : ∀ {t u w}, g'.arena.isLive t → g'.arena.isLive u → g.arena.Path t w u →
    g'.arena.Path t w u
  of_registered : ∀ {p t}, g.register.get? p = some t →
    g'.register.get? p = some t ∧ g'.arena.get? t = g.arena.get? t
  live_le : g'.arena.live ≤ g.arena.live

theorem Settled.refl (g : Automaton σ) : Settled g g where
  root_eq := rfl
  isLive := id
  accepts_iff _ := Iff.rfl
  path _ _ := id
  of_registered h := ⟨h, rfl⟩
  live_le := Nat.le_refl _

theorem Settled.trans (h : Settled g g') (h' : Settled g' g'') : Settled g g'' where
  root_eq := h'.root_eq.trans h.root_eq
  isLive ht := h.isLive (h'.isLive ht)
  accepts_iff ht := (h'.accepts_iff ht).trans (h.accepts_iff (h'.isLive ht))
  path ht hu hp := h'.path ht hu (h.path (h'.isLive ht) (h'.isLive hu) hp)
  of_registered hr := by
    obtain ⟨h₁, h₂⟩ := h.of_registered hr
    obtain ⟨h₃, h₄⟩ := h'.of_registered h₁
    exact ⟨h₃, h₄.trans h₂⟩
  live_le := Nat.le_trans h'.live_le h.live_le

/-- Where every state was in reach, every state that stays still is. -/
theorem Settled.trim (h : Settled g g') (hroot : g'.arena.isLive g'.root) (ht : g.Trim) :
    g'.Trim := by
  intro t hlive
  obtain ⟨w, hw⟩ := ht t (h.isLive hlive)
  rw [← h.root_eq] at hw
  exact ⟨w, h.path hroot hlive hw⟩

/-! ## The last state of the path -/

theorem mem_pathStates_concat (hpath : g.path = p ++ [(c, s)]) :
    t ∈ g.pathStates ↔ t ∈ g.root :: p.map Prod.snd ∨ t = s := by
  simp only [pathStates, hpath, List.map_append, List.map_cons, List.map_nil, List.mem_cons,
    List.mem_append, List.not_mem_nil, or_false, or_assoc]

namespace Chained

theorem last_not_mem (hg : g.Chained) (hpath : g.path = p ++ [(c, s)]) :
    s ∉ g.root :: p.map Prod.snd := by
  have hnd := hg.nodup
  rw [pathStates, hpath, List.map_append, ← List.cons_append] at hnd
  have hdis := (List.nodup_append.1 hnd).2.2
  exact fun hs => hdis s hs s (by simp) rfl

/-- The last link is the only edge that leads to the last state. -/
theorem edge_last_iff (hg : g.Chained) (hpath : g.path = p ++ [(c, s)]) :
    g.arena.Edge u d s ↔ u = endOf g.root p ∧ d = c := by
  have hs : s ∈ g.pathStates := (mem_pathStates_concat hpath).2 (.inr rfl)
  rw [hg.edge_iff hs, hpath, links_concat, List.mem_append, List.mem_singleton, Prod.mk.injEq,
    Prod.mk.injEq]
  constructor
  · rintro (h | ⟨h₁, h₂, -⟩)
    · exact absurd (List.mem_cons_of_mem _ (target_mem_of_links h)) (hg.last_not_mem hpath)
    · exact ⟨h₁, h₂⟩
  · exact fun ⟨h₁, h₂⟩ => .inr ⟨h₁, h₂, rfl⟩

/-- The edges to the states in front of the last one are the links in front of the last one. -/
theorem edge_init_iff (hg : g.Chained) (hpath : g.path = p ++ [(c, s)])
    (ht : t ∈ g.root :: p.map Prod.snd) :
    g.arena.Edge u d t ↔ (u, d, t) ∈ links g.root p := by
  rw [hg.edge_iff ((mem_pathStates_concat hpath).2 (.inl ht)), hpath, links_concat,
    List.mem_append, List.mem_singleton]
  refine or_iff_left fun h => hg.last_not_mem hpath ?_
  cases h
  exact ht

end Chained

/-- The children of the last state are registered. -/
theorem Settleable.kind_last (hg : g.Settleable) (hx : g.arena.get? (endOf g.root g.path) = some x) :
    g.register.kind g.arena (endOf g.root g.path) = .ok x.fingerprint := by
  refine Register.kind_eq_ok_iff.2 ⟨x, hx, rfl, fun t ht => ?_⟩
  obtain ⟨⟨d, u⟩, hmem, rfl⟩ := List.mem_map.1 ht
  have he := (edge_iff_mem hx).2 hmem
  obtain ⟨y, hy⟩ := isLive_iff.1 (hg.edge_live he)
  exact ⟨y, hy, hg.get?_register_iff.2 ⟨hg.off_path_of_end he, y, hy, rfl⟩⟩

/-! ## Registering the last state -/

/-- The last state of the path is registered if its kind is new. -/
theorem Settleable.register_last (hg : g.Settleable) (hpath : g.path = p ++ [(c, s)])
    (hx : g.arena.get? s = some x) (hnew : g.register.get? x.fingerprint = none) {reg : Register σ}
    (hr : ∀ q, reg.get? q = if q = x.fingerprint then some ((g.register.get? q).getD s)
      else g.register.get? q) :
    Settleable ⟨g.arena, reg, g.root, p⟩ ∧ Settled g ⟨g.arena, reg, g.root, p⟩ := by
  have hof : ∀ {q t}, reg.get? q = some t ↔
      g.register.get? q = some t ∨ q = x.fingerprint ∧ t = s := by
    intro q t
    rw [hr]
    split
    · next he => simp [he, hnew, eq_comm]
    · next he => simp [he]
  have hmem : ∀ {t}, t ∉ g.pathStates ↔ t ∉ g.root :: p.map Prod.snd ∧ t ≠ s := by
    intro t
    rw [mem_pathStates_concat hpath, not_or]
  refine ⟨⟨⟨hg.root_live, hg.edge_live, hg.acyclic, hg.edge_init_iff hpath⟩, ?_⟩,
    ⟨rfl, id, fun _ => Iff.rfl, fun _ _ => id, fun h => ⟨hof.2 (.inl h), rfl⟩, Nat.le_refl _⟩⟩
  intro q t
  show reg.get? q = some t ↔ t ∉ g.root :: p.map Prod.snd ∧ _
  rw [hof, hg.get?_register_iff, hmem]
  constructor
  · rintro (⟨⟨ht, -⟩, h⟩ | ⟨rfl, rfl⟩)
    · exact ⟨ht, h⟩
    · exact ⟨hg.last_not_mem hpath, x, hx, rfl⟩
  · rintro ⟨ht, y, hy, rfl⟩
    by_cases hts : t = s
    · subst hts
      rw [hx] at hy
      cases hy
      exact .inr ⟨rfl, rfl⟩
    · exact .inl ⟨⟨ht, hts⟩, y, hy, rfl⟩

/-! ## Moving the last edge -/

/-- The arena in which the edge of a state for a symbol is moved from one state to another, and the
one state is deleted. -/
def redirect (a : Arena σ) (parent : StateId) (y : State σ) (c : σ) (s t : StateId) : Arena σ :=
  (a.put parent (some { y with edges := y.edges.set c t })).delete s

theorem get?_redirect {a : Arena σ} (hy : a.get? u = some y) :
    (redirect a u y c s t).get? v =
      if v = s then none else if v = u then some { y with edges := y.edges.set c t }
      else a.get? v := by
  rw [redirect, get?_delete, get?_put (slot_lt_of_get? hy)]

theorem edge_redirect_iff {a : Arena σ} (hy : a.get? u = some y) :
    (redirect a u y c s t).Edge v d r ↔
      v ≠ s ∧ if v = u ∧ d = c then r = t else a.Edge v d r := by
  rw [Edge, get?_redirect hy]
  by_cases hs : v = s
  · simp [hs]
  · rw [if_neg hs]
    by_cases hu : v = u
    · subst hu
      by_cases hd : d = c
      · subst hd
        simp [hs, eq_comm]
      · simp [hs, hd, Edge, hy, EdgeTable.find?_set_of_ne hd]
    · simp [hs, hu, Edge]

/-- The last state `s` of the path, with content `x`, has a registered state `t` of its kind; `y` is
the content of the state in front of it. -/
structure Mergeable (g : Automaton σ) (p : List (σ × StateId)) (c : σ) (s t : StateId)
    (x y : State σ) : Prop where
  settleable : g.Settleable
  path_eq : g.path = p ++ [(c, s)]
  get?_last : g.arena.get? s = some x
  get?_register : g.register.get? x.fingerprint = some t
  get?_parent : g.arena.get? (endOf g.root p) = some y

/-- The automaton in which the last state has given way. -/
def merged (g : Automaton σ) (p : List (σ × StateId)) (c : σ) (s t : StateId) (y : State σ) :
    Automaton σ :=
  ⟨redirect g.arena (endOf g.root p) y c s t, g.register, g.root, p⟩

namespace Mergeable

variable (h : g.Mergeable p c s t x y)

include h

theorem mem_pathStates_iff : u ∈ g.pathStates ↔ u ∈ (g.merged p c s t y).pathStates ∨ u = s :=
  mem_pathStates_concat h.path_eq

theorem last_not_mem : s ∉ (g.merged p c s t y).pathStates :=
  h.settleable.last_not_mem h.path_eq

theorem edge_last_iff : g.arena.Edge u d s ↔ u = endOf g.root p ∧ d = c :=
  h.settleable.edge_last_iff h.path_eq

theorem edge_last : g.arena.Edge (endOf g.root p) c s := h.edge_last_iff.2 ⟨rfl, rfl⟩

theorem target_not_mem : t ∉ g.pathStates :=
  (h.settleable.get?_register_iff.1 h.get?_register).1

theorem exists_target : ∃ z, g.arena.get? t = some z ∧ z.fingerprint = x.fingerprint :=
  (h.settleable.get?_register_iff.1 h.get?_register).2

theorem target_ne : t ≠ s :=
  fun he => h.target_not_mem (h.mem_pathStates_iff.2 (.inr he))

theorem target_live : g.arena.isLive t := by
  obtain ⟨z, hz, -⟩ := h.exists_target
  exact isLive_of_get? hz

/-- The state that stays accepts what the one that goes accepted. -/
theorem accepts_target_iff : g.arena.Accepts t w ↔ g.arena.Accepts s w := by
  obtain ⟨z, hz, hkind⟩ := h.exists_target
  exact accepts_of_edges_eq hz h.get?_last (congrArg Fingerprint.isFinal hkind)
    (congrArg Fingerprint.edges hkind)

theorem get?_of_not_mem (hu : u ∉ g.pathStates) :
    (g.merged p c s t y).arena.get? u = g.arena.get? u := by
  have hus : u ≠ s := fun he => hu (h.mem_pathStates_iff.2 (.inr he))
  have hup : u ≠ endOf g.root p :=
    fun he => hu (h.mem_pathStates_iff.2 (.inl (he ▸ endOf_mem _ _)))
  rw [merged, get?_redirect h.get?_parent, if_neg hus, if_neg hup]

theorem isLive_iff : (g.merged p c s t y).arena.isLive u ↔ g.arena.isLive u ∧ u ≠ s := by
  rw [Arena.isLive_iff, Arena.isLive_iff, merged, get?_redirect h.get?_parent]
  by_cases hus : u = s
  · simp [hus]
  · by_cases hup : u = endOf g.root p
    · simp [hup, h.get?_parent, hup ▸ hus]
    · simp [hus, hup]

theorem edge_iff : (g.merged p c s t y).arena.Edge u d v ↔
    u ≠ s ∧ if u = endOf g.root p ∧ d = c then v = t else g.arena.Edge u d v :=
  edge_redirect_iff h.get?_parent

/-- An edge that is left is the one that was moved or an old one. -/
theorem edge_cases (he : (g.merged p c s t y).arena.Edge u d v) :
    u = endOf g.root p ∧ d = c ∧ v = t ∨ g.arena.Edge u d v ∧ v ≠ s := by
  obtain ⟨-, hv⟩ := h.edge_iff.1 he
  split at hv
  · next hud => exact .inl ⟨hud.1, hud.2, hv⟩
  · next hud =>
    refine .inr ⟨hv, ?_⟩
    rintro rfl
    exact hud (h.edge_last_iff.1 hv)

/-- An old edge is left, unless it belongs to the state that goes or leads to it. -/
theorem edge_of_ne (hu : u ≠ s) (hv : v ≠ s) (he : g.arena.Edge u d v) :
    (g.merged p c s t y).arena.Edge u d v := by
  refine h.edge_iff.2 ⟨hu, ?_⟩
  rw [if_neg]
  · exact he
  · rintro ⟨rfl, rfl⟩
    exact hv (he.unique h.edge_last)

theorem edge_target (hp : endOf g.root p ≠ s) :
    (g.merged p c s t y).arena.Edge (endOf g.root p) c t :=
  h.edge_iff.2 ⟨hp, by rw [if_pos ⟨rfl, rfl⟩]⟩

/-- The states that are left accept what they accepted. -/
theorem accepts_iff (hu : u ≠ s) :
    (g.merged p c s t y).arena.Accepts u w ↔ g.arena.Accepts u w := by
  induction w generalizing u with
  | nil =>
    rw [accepts_nil_iff, accepts_nil_iff, merged, get?_redirect h.get?_parent, if_neg hu]
    by_cases hup : u = endOf g.root p
    · simp [hup, h.get?_parent]
    · rw [if_neg hup]
  | cons d w ih =>
    rw [accepts_cons_iff, accepts_cons_iff]
    constructor
    · rintro ⟨v, he, hw⟩
      rcases h.edge_cases he with ⟨rfl, rfl, rfl⟩ | ⟨he, hv⟩
      · exact ⟨s, h.edge_last, h.accepts_target_iff.1 ((ih h.target_ne).1 hw)⟩
      · exact ⟨v, he, (ih hv).1 hw⟩
    · rintro ⟨v, he, hw⟩
      by_cases hv : v = s
      · subst hv
        obtain ⟨rfl, rfl⟩ := h.edge_last_iff.1 he
        exact ⟨t, h.edge_target hu, (ih h.target_ne).2 (h.accepts_target_iff.2 hw)⟩
      · exact ⟨v, h.edge_of_ne hu hv he, (ih hv).2 hw⟩

/-- The state that stays leads where the one that goes led. -/
theorem edge_target_iff : g.arena.Edge t d u ↔ g.arena.Edge s d u := by
  obtain ⟨z, hz, hkind⟩ := h.exists_target
  have hedges : z.edges = x.edges := congrArg Fingerprint.edges hkind
  rw [edge_iff_mem hz, edge_iff_mem h.get?_last, hedges]

/-- Words lead from one of the states that are left to another as they did. -/
theorem path (hu : u ≠ s) (hv : v ≠ s) (hp : g.arena.Path u w v) :
    (g.merged p c s t y).arena.Path u w v := by
  induction w generalizing u with
  | nil => exact path_nil_iff.2 (path_nil_iff.1 hp)
  | cons d w ih =>
    obtain ⟨r, he, hr⟩ := path_cons_iff_edge.1 hp
    by_cases hrs : r = s
    · subst hrs
      obtain ⟨rfl, rfl⟩ := h.edge_last_iff.1 he
      refine path_cons_iff_edge.2 ⟨t, h.edge_target hu, ih h.target_ne ?_⟩
      -- the word goes on behind the state that goes, and does so from the one that stays
      cases w with
      | nil => exact absurd (path_nil_iff.1 hr).symm hv
      | cons e w =>
        obtain ⟨q, hq, hw⟩ := path_cons_iff_edge.1 hr
        exact path_cons_iff_edge.2 ⟨q, h.edge_target_iff.2 hq, hw⟩
    · exact path_cons_iff_edge.2 ⟨r, h.edge_of_ne hu hrs he, ih hrs hr⟩

/-- Ranks for the new graph: the states on the path are raised above the new target. -/
theorem ranked : ∃ rank, (g.merged p c s t y).arena.Ranked rank := by
  obtain ⟨rank, hr⟩ := h.settleable.exists_ranked
  have ht : t ∉ (g.merged p c s t y).pathStates :=
    fun hm => h.target_not_mem (h.mem_pathStates_iff.2 (.inl hm))
  refine ⟨fun u => if u ∈ (g.merged p c s t y).pathStates then rank u + (rank t + 1)
    else rank u, ?_⟩
  intro u d v he
  dsimp only
  rcases h.edge_cases he with ⟨rfl, -, rfl⟩ | ⟨he, -⟩
  · have hp : endOf g.root p ∈ (g.merged p c s v y).pathStates := endOf_mem _ _
    rw [if_neg ht, if_pos hp]
    omega
  · have hlt := hr he
    by_cases hv : v ∈ (g.merged p c s t y).pathStates
    · have hu : u ∈ (g.merged p c s t y).pathStates :=
        source_mem_of_links ((h.settleable.edge_init_iff h.path_eq hv).1 he)
      rw [if_pos hv, if_pos hu]
      omega
    · rw [if_neg hv]
      split <;> omega

theorem chained : (g.merged p c s t y).Chained where
  root_live := h.isLive_iff.2 ⟨h.settleable.root_live,
    fun he => h.last_not_mem (he ▸ root_mem_pathStates (g.merged p c s t y))⟩
  edge_live he := by
    refine h.isLive_iff.2 ?_
    rcases h.edge_cases he with ⟨-, -, rfl⟩ | ⟨he, hv⟩
    · exact ⟨h.target_live, h.target_ne⟩
    · exact ⟨h.settleable.edge_live he, hv⟩
  acyclic := by
    obtain ⟨rank, hr⟩ := h.ranked
    exact hr.acyclic
  edge_iff := by
    intro u d v hv
    have hinit := h.settleable.edge_init_iff (u := u) (d := d) h.path_eq hv
    refine Iff.trans ?_ hinit
    constructor
    · intro he
      rcases h.edge_cases he with ⟨-, -, rfl⟩ | ⟨he, -⟩
      · exact absurd (h.mem_pathStates_iff.2 (.inl hv)) h.target_not_mem
      · exact he
    · intro he
      refine h.edge_of_ne ?_ ?_ he
      · rintro rfl
        exact h.last_not_mem (source_mem_of_links (hinit.1 he))
      · rintro rfl
        exact h.last_not_mem hv

/-- The last state of the path gives way to the registered state of its kind. -/
theorem settleable_merged : (g.merged p c s t y).Settleable where
  toChained := h.chained
  get?_register_iff := by
    intro q u
    show g.register.get? q = some u ↔ _
    rw [h.settleable.get?_register_iff]
    constructor
    · rintro ⟨hu, z, hz, hkind⟩
      exact ⟨fun hm => hu (h.mem_pathStates_iff.2 (.inl hm)), z,
        (h.get?_of_not_mem hu).trans hz, hkind⟩
    · rintro ⟨hu, z, hz, hkind⟩
      have hnot : u ∉ g.pathStates := fun hm =>
        (h.mem_pathStates_iff.1 hm).elim hu (h.isLive_iff.1 (isLive_of_get? hz)).2
      exact ⟨hnot, z, (h.get?_of_not_mem hnot).symm.trans hz, hkind⟩

theorem settled : Settled g (g.merged p c s t y) where
  root_eq := rfl
  isLive hu := (h.isLive_iff.1 hu).1
  accepts_iff hu := h.accepts_iff (h.isLive_iff.1 hu).2
  path hu hv := h.path (h.isLive_iff.1 hu).2 (h.isLive_iff.1 hv).2
  of_registered hr := ⟨hr, h.get?_of_not_mem (h.settleable.get?_register_iff.1 hr).1⟩
  live_le := by
    show (redirect g.arena (endOf g.root p) y c s t).live ≤ g.arena.live
    unfold redirect Arena.delete
    split
    · exact Nat.sub_le _ _
    · exact Nat.le_refl _

end Mergeable

/-! ## Settling a part of the path -/

omit [Symbol σ] in
theorem endOf_append_reverse (s : StateId) (p q : List (σ × StateId)) :
    endOf s (p ++ q.reverse) = (q.head?.map Prod.snd).getD (endOf s p) := by
  rw [endOf_append, endOf, List.getLast?_reverse]

/-- A state whose kind can be told can be registered. -/
theorem exists_insert_of_kind {r : Register σ} {a : Arena σ} {f : Fingerprint σ}
    (h : r.kind a s = .ok f) : ∃ isNew r', r.insert a s = .ok (isNew, r') := by
  unfold Register.insert
  rw [h]
  exact ⟨_, _, rfl⟩

/-- **Settling runs through**, whatever part of the path is settled. -/
theorem Settleable.settleLoop_spec (hg : g.Settleable) (merges : List (Merge σ))
    (hpath : g.path = p ++ q.reverse) :
    ∃ a r ms, settleLoop g.arena g.register (endOf g.root p) merges q = .ok (a, r, ms) ∧
      Settleable ⟨a, r, g.root, p⟩ ∧ Settled g ⟨a, r, g.root, p⟩ := by
  induction q generalizing g merges with
  | nil =>
    have hself : g = ⟨g.arena, g.register, g.root, p⟩ := by
      rw [List.reverse_nil, List.append_nil] at hpath
      rw [← hpath]
    rw [settleLoop]
    exact ⟨_, _, _, rfl, hself ▸ hg, hself ▸ Settled.refl g⟩
  | cons e q ih =>
    obtain ⟨c, s⟩ := e
    rw [List.reverse_cons, ← List.append_assoc] at hpath
    have hend : endOf g.root g.path = s := by rw [hpath, endOf_concat]
    obtain ⟨x, hx⟩ := isLive_iff.1 (hg.isLive_of_mem_pathStates (endOf_mem_pathStates g))
    have hkind := hg.kind_last hx
    rw [hend] at hx hkind
    have hfind : g.register.find? g.arena s = .ok (g.register.get? x.fingerprint) :=
      Register.find?_eq_ok_iff.2 ⟨_, hkind, rfl⟩
    rw [settleLoop, hfind]
    cases hreg : g.register.get? x.fingerprint with
    | some t =>
      obtain ⟨y, hy⟩ := isLive_iff.1 (hg.isLive_of_mem_pathStates
        ((mem_pathStates_concat hpath).2 (.inl (endOf_mem g.root (p ++ q.reverse)))))
      have h : g.Mergeable (p ++ q.reverse) c s t x y := ⟨hg, hpath, hx, hreg, hy⟩
      have hset : g.arena.setEdge ((q.head?.map Prod.snd).getD (endOf g.root p)) c t = .ok
          (y.edges.find? c, g.arena.put (endOf g.root (p ++ q.reverse))
            (some { y with edges := y.edges.set c t })) := by
        rw [← endOf_append_reverse]
        exact setEdge_eq_ok_iff.2 ⟨h.target_live, y, hy, rfl, rfl⟩
      obtain ⟨a, r, ms, hrun, hset', hsettled⟩ := ih h.settleable_merged (⟨s, t, c⟩ :: merges) rfl
      refine ⟨a, r, ms, ?_, hset', h.settled.trans hsettled⟩
      simp only [bind, Except.bind, hset]
      exact hrun
    | none =>
      obtain ⟨isNew, r', hins⟩ := exists_insert_of_kind hkind
      obtain ⟨f, hf, -, hget⟩ := Register.get?_of_insert hins
      obtain rfl : f = x.fingerprint := Except.ok.inj (hf.symm.trans hkind)
      obtain ⟨hset, hsettled⟩ := hg.register_last hpath hx hreg hget
      obtain ⟨a, r, ms, hrun, hset', hsettled'⟩ := ih hset merges rfl
      refine ⟨a, r, ms, ?_, hset', hsettled.trans hsettled'⟩
      simp only [bind, Except.bind, hins]
      exact hrun

/-- **Settling the path from some depth on** leaves a path that can be settled and that ends there. -/
theorem Settleable.settle_spec (hg : g.Settleable) (k : Nat) :
    ∃ g' ms, g.settle k = .ok (g', ms) ∧ g'.Settleable ∧ Settled g g' ∧
      g'.path = g.path.take k := by
  have hpath : g.path = g.path.take k ++ (g.path.drop k).reverse.reverse := by
    rw [List.reverse_reverse, List.take_append_drop]
  obtain ⟨a, r, ms, hrun, hset, hsettled⟩ := hg.settleLoop_spec [] hpath
  refine ⟨⟨a, r, g.root, g.path.take k⟩, ms, ?_, hset, hsettled, rfl⟩
  unfold settle
  simp only [bind, Except.bind, hrun]
  rfl

/-! ## Settling a growing automaton -/

theorem Growing.settleable (hg : g.Growing) : g.Settleable where
  toChained := hg.chained
  get?_register_iff := by
    intro p t
    constructor
    · exact fun hr => ⟨hg.isOpen p t hr, hg.of_register hr⟩
    · rintro ⟨ht, x, hx, rfl⟩
      exact hg.registered hx ht

/-- A path that can be settled belongs to a growing automaton if every state but the start accepts a
word. -/
theorem Settleable.growing (hg : g.Settleable) (htidy : g.arena.Tidy)
    (haccepts : ∀ t, g.arena.isLive t → t ≠ g.root → ∃ w, g.arena.Accepts t w) : g.Growing where
  tidy := htidy
  root_live := hg.root_live
  edge_live := hg.edge_live
  ranked := hg.exists_ranked
  edge_iff := hg.edge_iff
  of_register hr := (hg.get?_register_iff.1 hr).2
  registered hx ht := hg.get?_register_iff.2 ⟨ht, _, hx, rfl⟩
  accepts ht hmem := haccepts _ ht fun he => hmem (he ▸ root_mem_pathStates g)
  isOpen p t hr := (hg.get?_register_iff.1 hr).1
  productive hne := by
    have hlive := hg.isLive_of_mem_pathStates (endOf_mem_pathStates g)
    refine haccepts _ hlive fun he => ?_
    rcases List.eq_nil_or_concat g.path with hnil | ⟨p, ⟨c, s⟩, hpath⟩
    · exact hne hnil
    · rw [List.concat_eq_append] at hpath
      rw [hpath, endOf_concat] at he
      exact hg.last_not_mem hpath (he ▸ List.mem_cons_self ..)

/-- Settling the path from some depth on keeps the shape and shortens the path. -/
theorem Growing.settle_spec (hg : g.Growing) (k : Nat) :
    ∃ g' ms, g.settle k = .ok (g', ms) ∧ g'.Growing ∧ Settled g g' ∧ g'.path = g.path.take k := by
  obtain ⟨g', ms, hrun, hset, hsettled, hpath⟩ := hg.settleable.settle_spec k
  have htidy : g'.arena.Tidy := (steps_of_settle hrun).invariant Step.tidy hg.tidy
  refine ⟨g', ms, hrun, hset.growing htidy fun t ht hne => ?_, hsettled, hpath⟩
  obtain ⟨w, hw⟩ := hg.exists_accepts hg.productive (hsettled.isLive ht) (hsettled.root_eq ▸ hne)
  exact ⟨w, (hsettled.accepts_iff ht).2 hw⟩

/-- Settling nothing changes nothing. -/
theorem settle_of_length_le {k : Nat} (h : g.path.length ≤ k) : g.settle k = .ok (g, []) := by
  unfold settle
  rw [List.drop_eq_nil_of_le h, List.take_of_length_le h]
  rfl

end WordGraph.Automaton
