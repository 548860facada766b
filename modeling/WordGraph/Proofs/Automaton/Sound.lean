import WordGraph.Automaton
import WordGraph.Proofs.Arena.Edge

/-!
# The shape of a growing automaton

What holds of an automaton between any two steps of its growth. The states on the path of the last
word form a chain from the start state, and no other edge leads to one of them; every state off the
path is the registered one of its kind and accepts a word; the graph has no cycle.

* `Chained` — the path, in a graph without cycles
* `Settleable` — all that it takes to settle the path: nothing is said of the words that are accepted
* `Sound` — the shape, whatever the registered states on the path
* `Open` — no state on the path is registered
* `Productive` — a word is accepted from the end of the path
* `Trim` — every state is in reach, as long as no edge is taken
* `Sound.off_path` — no edge leads back onto the path
* `Sound.path_lastWord` — the last word spells the path
* `Sound.eq_of_path` — one word leads to a state on the path
-/

namespace WordGraph.Automaton

open Arena

variable {σ : Type} [Symbol σ] {g : Automaton σ} {root s t u : StateId} {c d : σ}
  {p q : List (σ × StateId)} {w v : Word σ} {x : State σ}

/-! ## Paths as lists of links -/

/-- The links of a path from a state: source, symbol and target. -/
def links (s : StateId) : List (σ × StateId) → List (StateId × σ × StateId)
  | [] => []
  | (c, t) :: p => (s, c, t) :: links t p

omit [Symbol σ] in
@[simp] theorem endOf_concat (s : StateId) (p : List (σ × StateId)) (c : σ) (t : StateId) :
    endOf s (p ++ [(c, t)]) = t := by
  simp [endOf]

omit [Symbol σ] in
@[simp] theorem endOf_cons (s : StateId) (c : σ) (t : StateId) (p : List (σ × StateId)) :
    endOf s ((c, t) :: p) = endOf t p := by
  cases p <;> simp [endOf, List.getLast?_cons]

omit [Symbol σ] in
theorem endOf_append (s : StateId) (p q : List (σ × StateId)) :
    endOf s (p ++ q) = endOf (endOf s p) q := by
  induction p generalizing s with
  | nil => rfl
  | cons e p ih =>
    obtain ⟨c, t⟩ := e
    rw [List.cons_append, endOf_cons, endOf_cons, ih]

omit [Symbol σ] in
theorem links_append (s : StateId) (p q : List (σ × StateId)) :
    links s (p ++ q) = links s p ++ links (endOf s p) q := by
  induction p generalizing s with
  | nil => rfl
  | cons e p ih =>
    obtain ⟨c, t⟩ := e
    rw [List.cons_append, links, links, ih, endOf_cons, List.cons_append]

omit [Symbol σ] in
theorem links_concat (s : StateId) (p : List (σ × StateId)) (c : σ) (t : StateId) :
    links s (p ++ [(c, t)]) = links s p ++ [(endOf s p, c, t)] := links_append s p [(c, t)]

omit [Symbol σ] in
theorem source_mem_of_links (h : (t, c, u) ∈ links s p) : t ∈ s :: p.map Prod.snd := by
  induction p generalizing s with
  | nil => cases h
  | cons e p ih =>
    obtain ⟨d, v⟩ := e
    rcases List.mem_cons.1 h with h | h
    · cases h
      exact List.mem_cons_self ..
    · exact List.mem_cons_of_mem _ (ih h)

omit [Symbol σ] in
theorem target_mem_of_links (h : (t, c, u) ∈ links s p) : u ∈ p.map Prod.snd := by
  induction p generalizing s with
  | nil => cases h
  | cons e p ih =>
    obtain ⟨d, v⟩ := e
    rcases List.mem_cons.1 h with h | h
    · cases h
      exact List.mem_cons_self ..
    · exact List.mem_cons_of_mem _ (ih h)

omit [Symbol σ] in
/-- Every state of a path but the first is the target of a link. -/
theorem exists_link (s : StateId) (h : t ∈ p.map Prod.snd) : ∃ l ∈ links s p, l.2.2 = t := by
  induction p generalizing s with
  | nil => cases h
  | cons e p ih =>
    obtain ⟨d, v⟩ := e
    rcases List.mem_cons.1 h with rfl | h
    · exact ⟨_, List.mem_cons_self .., rfl⟩
    · obtain ⟨l, hl, he⟩ := ih v h
      exact ⟨l, List.mem_cons_of_mem _ hl, he⟩

omit [Symbol σ] in
theorem endOf_mem (s : StateId) (p : List (σ × StateId)) : endOf s p ∈ s :: p.map Prod.snd := by
  induction p generalizing s with
  | nil => exact List.mem_cons_self ..
  | cons e p ih =>
    obtain ⟨d, v⟩ := e
    rw [endOf_cons]
    exact List.mem_cons_of_mem _ (ih v)

/-! ## The shape -/

/-- The states on the path of the last word, the start state first. -/
def pathStates (g : Automaton σ) : List StateId := g.root :: g.path.map Prod.snd

/-- The path hangs together in a graph without cycles, and its states are nobody else's. -/
structure Chained (g : Automaton σ) : Prop where
  root_live : g.arena.isLive g.root
  edge_live : ∀ {s c t}, g.arena.Edge s c t → g.arena.isLive t
  acyclic : ∀ {s w}, g.arena.Path s w s → w = []
  /-- The links of the path are the only edges that lead to a state on it. -/
  edge_iff : ∀ {s c t}, t ∈ g.pathStates → (g.arena.Edge s c t ↔ (s, c, t) ∈ links g.root g.path)

/-- The path can be settled: the states off the path, and no others, are registered, each one under its
kind. -/
structure Settleable (g : Automaton σ) : Prop extends g.Chained where
  get?_register_iff : ∀ {p t}, g.register.get? p = some t ↔
    t ∉ g.pathStates ∧ ∃ x, g.arena.get? t = some x ∧ x.fingerprint = p

/-- The shape of a growing automaton. -/
structure Sound (g : Automaton σ) : Prop where
  tidy : g.arena.Tidy
  root_live : g.arena.isLive g.root
  edge_live : ∀ {s c t}, g.arena.Edge s c t → g.arena.isLive t
  ranked : ∃ rank, g.arena.Ranked rank
  /-- The links of the path are the only edges that lead to a state on it. -/
  edge_iff : ∀ {s c t}, t ∈ g.pathStates → (g.arena.Edge s c t ↔ (s, c, t) ∈ links g.root g.path)
  of_register : ∀ {p t}, g.register.get? p = some t →
    ∃ x, g.arena.get? t = some x ∧ x.fingerprint = p
  registered : ∀ {t x}, g.arena.get? t = some x → t ∉ g.pathStates →
    g.register.get? x.fingerprint = some t
  accepts : ∀ {t}, g.arena.isLive t → t ∉ g.pathStates → ∃ w, g.arena.Accepts t w

/-- No state on the path is registered. -/
def Open (g : Automaton σ) : Prop := ∀ p t, g.register.get? p = some t → t ∉ g.pathStates

/-- A path has an end from which a word is accepted. -/
def Productive (g : Automaton σ) : Prop :=
  g.path ≠ [] → ∃ w, g.arena.Accepts (endOf g.root g.path) w

/-- Every state is in reach. -/
def Trim (g : Automaton σ) : Prop := ∀ t, g.arena.isLive t → g.arena.Reaches g.root t

theorem root_mem_pathStates (g : Automaton σ) : g.root ∈ g.pathStates := List.mem_cons_self ..

theorem endOf_mem_pathStates (g : Automaton σ) : endOf g.root g.path ∈ g.pathStates :=
  endOf_mem _ _

theorem ne_endOf_of_not_mem (h : t ∉ g.pathStates) : t ≠ endOf g.root g.path := by
  rintro rfl
  exact h (endOf_mem_pathStates g)

/-! ## Ranks along a path -/

theorem rank_endOf_le {a : Arena σ} {rank : StateId → Nat} (hr : a.Ranked rank)
    (hl : ∀ l ∈ links s p, a.Edge l.1 l.2.1 l.2.2) : rank (endOf s p) ≤ rank s := by
  induction p generalizing s with
  | nil => exact Nat.le_refl _
  | cons e p ih =>
    obtain ⟨c, t⟩ := e
    rw [endOf_cons]
    have hlt := hr (hl (s, c, t) (List.mem_cons_self ..))
    exact Nat.le_trans (ih fun l h => hl l (List.mem_cons_of_mem _ h)) (Nat.le_of_lt hlt)

/-- Every link starts above the end of the path. -/
theorem rank_endOf_lt_of_links {a : Arena σ} {rank : StateId → Nat} (hr : a.Ranked rank)
    (hl : ∀ l ∈ links s p, a.Edge l.1 l.2.1 l.2.2) (h : (t, c, u) ∈ links s p) :
    rank (endOf s p) < rank t := by
  induction p generalizing s with
  | nil => cases h
  | cons e p ih =>
    obtain ⟨d, v⟩ := e
    have hl' := fun l h => hl l (List.mem_cons_of_mem _ h)
    rw [endOf_cons]
    rcases List.mem_cons.1 h with h | h
    · have hlt : rank v < rank s := hr (hl (s, d, v) (List.mem_cons_self ..))
      cases h
      exact Nat.lt_of_le_of_lt (rank_endOf_le hr hl') hlt
    · exact ih hl' h

/-- Every link ends below the start of the path. -/
theorem rank_lt_of_links {a : Arena σ} {rank : StateId → Nat} (hr : a.Ranked rank)
    (hl : ∀ l ∈ links s p, a.Edge l.1 l.2.1 l.2.2) (h : t ∈ p.map Prod.snd) : rank t < rank s := by
  induction p generalizing s with
  | nil => cases h
  | cons e p ih =>
    obtain ⟨d, v⟩ := e
    have hlt := hr (hl (s, d, v) (List.mem_cons_self ..))
    rcases List.mem_cons.1 h with rfl | h
    · exact hlt
    · exact Nat.lt_trans (ih (fun l h => hl l (List.mem_cons_of_mem _ h)) h) hlt

theorem nodup_of_links {a : Arena σ} {rank : StateId → Nat} (hr : a.Ranked rank)
    (hl : ∀ l ∈ links s p, a.Edge l.1 l.2.1 l.2.2) : (s :: p.map Prod.snd).Nodup := by
  induction p generalizing s with
  | nil => simp
  | cons e p ih =>
    obtain ⟨d, v⟩ := e
    refine List.nodup_cons.2 ⟨fun hmem => ?_, ih fun l h => hl l (List.mem_cons_of_mem _ h)⟩
    exact Nat.lt_irrefl _ (rank_lt_of_links hr hl hmem)

/-- A path has one link to each of its states. -/
theorem source_unique_of_links {a : Arena σ} {rank : StateId → Nat} (hr : a.Ranked rank)
    (hl : ∀ l ∈ links s p, a.Edge l.1 l.2.1 l.2.2) {r : StateId} (h : (t, c, u) ∈ links s p)
    (h' : (r, d, u) ∈ links s p) : (t, c) = (r, d) := by
  induction p generalizing s with
  | nil => cases h
  | cons e p ih =>
    obtain ⟨b, v⟩ := e
    have hl' := fun l h => hl l (List.mem_cons_of_mem _ h)
    -- no later link leads to the state that the first one leads to
    have hfirst : ∀ {q b}, (q, b, v) ∉ links v p := fun hm =>
      Nat.lt_irrefl _ (rank_lt_of_links hr hl' (target_mem_of_links hm))
    rcases List.mem_cons.1 h with h₁ | h₁ <;> rcases List.mem_cons.1 h' with h₂ | h₂
    · cases h₁
      cases h₂
      rfl
    · cases h₁
      exact absurd h₂ hfirst
    · cases h₂
      exact absurd h₁ hfirst
    · exact ih hl' h₁ h₂

omit [Symbol σ] in
/-- A path goes through each of its links. -/
theorem exists_append_of_links (h : (t, c, u) ∈ links s p) :
    ∃ q r, p = q ++ (c, u) :: r ∧ t = endOf s q := by
  induction p generalizing s with
  | nil => cases h
  | cons e p ih =>
    obtain ⟨d, v⟩ := e
    rcases List.mem_cons.1 h with h | h
    · cases h
      exact ⟨[], p, rfl, rfl⟩
    · obtain ⟨q, r, rfl, rfl⟩ := ih h
      exact ⟨(d, v) :: q, r, rfl, (endOf_cons ..).symm⟩

theorem path_of_links {a : Arena σ} (hl : ∀ l ∈ links s p, a.Edge l.1 l.2.1 l.2.2) :
    a.Path s (p.map Prod.fst) (endOf s p) := by
  induction p generalizing s with
  | nil => exact .nil s
  | cons e p ih =>
    obtain ⟨d, v⟩ := e
    rw [endOf_cons, List.map_cons]
    exact path_cons_iff_edge.2 ⟨v, hl (s, d, v) (List.mem_cons_self ..),
      ih fun l h => hl l (List.mem_cons_of_mem _ h)⟩

/-- What a word in front of that of the path leads to lies on the path. -/
theorem mem_of_isPrefix_of_links {a : Arena σ} {w : Word σ}
    (hl : ∀ l ∈ links s p, a.Edge l.1 l.2.1 l.2.2) (hw : w <+: p.map Prod.fst)
    (hp : a.Path s w t) : t ∈ s :: p.map Prod.snd := by
  obtain ⟨v, hv⟩ := hw
  obtain ⟨q, r, rfl, rfl, -⟩ := List.map_eq_append_iff.1 hv.symm
  have hend : a.Path s (q.map Prod.fst) (endOf s q) := by
    refine path_of_links fun l h => hl l ?_
    rw [links_append]
    exact List.mem_append_left _ h
  rw [hp.unique hend]
  exact List.cons_subset_cons _ (List.map_subset _ (List.subset_append_left ..)) (endOf_mem _ _)

/-! ## States on the path -/

namespace Chained

theorem exists_ranked (hg : g.Chained) : ∃ rank, g.arena.Ranked rank :=
  Arena.exists_ranked hg.edge_live hg.acyclic

/-- The links of the path are edges. -/
theorem edge_of_links (hg : g.Chained) (h : (s, c, t) ∈ links g.root g.path) :
    g.arena.Edge s c t :=
  (hg.edge_iff (List.mem_cons_of_mem _ (target_mem_of_links h))).2 h

theorem forall_links (hg : g.Chained) :
    ∀ l ∈ links g.root g.path, g.arena.Edge l.1 l.2.1 l.2.2 :=
  fun _ h => hg.edge_of_links h

theorem nodup (hg : g.Chained) : g.pathStates.Nodup := by
  obtain ⟨rank, hr⟩ := hg.exists_ranked
  exact nodup_of_links hr hg.forall_links

theorem isLive_of_mem_pathStates (hg : g.Chained) (h : t ∈ g.pathStates) : g.arena.isLive t := by
  rcases List.mem_cons.1 h with rfl | h
  · exact hg.root_live
  · obtain ⟨l, hl, rfl⟩ := exists_link g.root h
    exact hg.edge_live (hg.forall_links l hl)

/-- No edge leads from the end of the path to a state on it. -/
theorem off_path_of_end (hg : g.Chained) (he : g.arena.Edge (endOf g.root g.path) c t) :
    t ∉ g.pathStates := by
  intro h
  obtain ⟨rank, hr⟩ := hg.exists_ranked
  exact Nat.lt_irrefl _ (rank_endOf_lt_of_links hr hg.forall_links ((hg.edge_iff h).1 he))

end Chained

theorem Sound.chained (hg : g.Sound) : g.Chained where
  root_live := hg.root_live
  edge_live := hg.edge_live
  acyclic := by
    obtain ⟨rank, hr⟩ := hg.ranked
    exact hr.acyclic
  edge_iff := hg.edge_iff

namespace Sound

/-! ## What the shape entails -/

theorem dag (hg : g.Sound) (hs : g.arena.isLive s) : g.arena.Dag s := by
  obtain ⟨rank, hr⟩ := hg.ranked
  exact hr.dag hg.edge_live hs

theorem dag_root (hg : g.Sound) : g.arena.Dag g.root := hg.dag hg.root_live

/-- The links of the path are edges. -/
theorem edge_of_links (hg : g.Sound) (h : (s, c, t) ∈ links g.root g.path) :
    g.arena.Edge s c t :=
  hg.chained.edge_of_links h

theorem forall_links (hg : g.Sound) :
    ∀ l ∈ links g.root g.path, g.arena.Edge l.1 l.2.1 l.2.2 :=
  hg.chained.forall_links

theorem nodup (hg : g.Sound) : g.pathStates.Nodup := hg.chained.nodup

/-- The last word spells the path. -/
theorem path_lastWord (hg : g.Sound) : g.arena.Path g.root g.lastWord (endOf g.root g.path) :=
  path_of_links hg.forall_links

theorem isLive_of_reaches (hg : g.Sound) (hs : g.arena.isLive s) (h : g.arena.Reaches s t) :
    g.arena.isLive t := by
  obtain ⟨w, h⟩ := h
  exact isLive_of_path hg.edge_live hs h

theorem isLive_of_mem_pathStates (hg : g.Sound) (h : t ∈ g.pathStates) : g.arena.isLive t :=
  hg.chained.isLive_of_mem_pathStates h

theorem source_mem (hg : g.Sound) (he : g.arena.Edge s c t) (h : t ∈ g.pathStates) :
    s ∈ g.pathStates :=
  source_mem_of_links ((hg.edge_iff h).1 he)

/-- No edge leads from a state off the path to one on it. -/
theorem off_path (hg : g.Sound) (hs : s ∉ g.pathStates) (he : g.arena.Edge s c t) :
    t ∉ g.pathStates :=
  fun h => hs (hg.source_mem he h)

/-- No edge leads to the start state. -/
theorem not_edge_root (hg : g.Sound) : ¬g.arena.Edge s c g.root := by
  intro he
  have h := (hg.edge_iff (root_mem_pathStates g)).1 he
  exact (List.nodup_cons.1 hg.nodup).1 (target_mem_of_links h)

/-- No edge leads from the end of the path to a state on it. -/
theorem off_path_of_end (hg : g.Sound) (he : g.arena.Edge (endOf g.root g.path) c t) :
    t ∉ g.pathStates :=
  hg.chained.off_path_of_end he

/-- An edge from a state on the path leads along the path or off it. -/
theorem off_path_of_ne (hg : g.Sound) (hp : g.path = p ++ (c, t) :: q)
    (he : g.arena.Edge (endOf g.root p) d u) (hne : d ≠ c) : u ∉ g.pathStates := by
  intro h
  obtain ⟨rank, hr⟩ := hg.ranked
  have hlinks : links g.root g.path = links g.root p ++ (endOf g.root p, c, t) :: links t q := by
    rw [hp, links_append]
    rfl
  have hall := hg.forall_links
  rw [hlinks] at hall
  have hmem := (hg.edge_iff h).1 he
  rw [hlinks, List.mem_append, List.mem_cons] at hmem
  rcases hmem with hmem | hmem | hmem
  -- a link in front starts above this state
  · exact Nat.lt_irrefl _ (rank_endOf_lt_of_links hr
      (fun l hl => hall l (List.mem_append_left _ hl)) hmem)
  · exact hne (Prod.ext_iff.1 (Prod.ext_iff.1 hmem).2).1
  -- a link behind starts below it
  · have hlt : rank t < rank (endOf g.root p) := hr (hall (endOf g.root p, c, t)
      (List.mem_append_right _ (List.mem_cons_self ..)))
    have hle : rank (endOf g.root p) ≤ rank t := by
      rcases List.mem_cons.1 (source_mem_of_links hmem) with he' | hm
      · exact Nat.le_of_eq (congrArg rank he')
      · exact Nat.le_of_lt (rank_lt_of_links hr (fun l hl => hall l
          (List.mem_append_right _ (List.mem_cons_of_mem _ hl))) hm)
    omega

/-! ## The words that lead to the path -/

/-- The front of the path is a path. -/
theorem path_of_append (hg : g.Sound) (hp : g.path = p ++ q) :
    g.arena.Path g.root (p.map Prod.fst) (endOf g.root p) := by
  refine path_of_links fun l hl => hg.forall_links l ?_
  rw [hp, links_append]
  exact List.mem_append_left _ hl

/-- The states on the path are in reach. -/
theorem reaches_of_mem_pathStates (hg : g.Sound) (ht : t ∈ g.pathStates) :
    g.arena.Reaches g.root t := by
  rcases List.mem_cons.1 ht with rfl | ht
  · exact .refl _
  · obtain ⟨⟨s, c, u⟩, hl, rfl⟩ := exists_link g.root ht
    obtain ⟨p, q, hpq, rfl⟩ := exists_append_of_links hl
    exact Reaches.trans ⟨_, hg.path_of_append hpq⟩ (hg.edge_of_links hl).reaches

/-- What a word in front of the last one leads to lies on the path. -/
theorem mem_pathStates_of_isPrefix (hg : g.Sound) (hw : w <+: g.lastWord)
    (hp : g.arena.Path g.root w t) : t ∈ g.pathStates :=
  mem_of_isPrefix_of_links hg.forall_links hw hp

/-- Words in front of the last one that lead to one state are the same. -/
theorem eq_of_isPrefix (hg : g.Sound) (hw : w <+: g.lastWord) (hv : v <+: g.lastWord)
    (hp : g.arena.Path g.root w t) (hq : g.arena.Path g.root v t) : w = v := by
  obtain ⟨rank, hr⟩ := hg.ranked
  -- what the longer one has more leads in a circle
  have hle : ∀ {w v : Word σ}, w <+: v → g.arena.Path g.root w t → g.arena.Path g.root v t →
      w = v := by
    rintro w _ ⟨u, rfl⟩ hp hq
    obtain ⟨t', hp', hu⟩ := path_append_iff.1 hq
    obtain rfl := hp.unique hp'
    rw [hr.acyclic hu, List.append_nil]
  rcases List.prefix_or_prefix_of_prefix hw hv with h | h
  · exact hle h hp hq
  · exact (hle h hq hp).symm

/-- A word that leads to a state on the path stands in front of the last one. -/
theorem isPrefix_of_path (hg : g.Sound) (ht : t ∈ g.pathStates) (hp : g.arena.Path g.root w t) :
    w <+: g.lastWord := by
  induction w using List.reverseRecOn generalizing t with
  | nil => exact List.nil_prefix
  | append_singleton w c ih =>
    obtain ⟨s, hps, hs⟩ := path_append_iff.1 hp
    obtain ⟨u, he, hu⟩ := path_cons_iff_edge.1 hs
    obtain rfl := path_nil_iff.1 hu
    obtain ⟨p, q, hpq, rfl⟩ := exists_append_of_links ((hg.edge_iff ht).1 he)
    have hpre : p.map Prod.fst ++ [c] <+: g.lastWord := by
      rw [lastWord, hpq]
      exact ⟨q.map Prod.fst, by simp⟩
    have hw := ih (hg.source_mem he ht) hps
    rwa [hg.eq_of_isPrefix hw ((List.prefix_append _ _).trans hpre) hps (hg.path_of_append hpq)]

/-- One word leads to a state on the path. -/
theorem eq_of_path (hg : g.Sound) (ht : t ∈ g.pathStates) (hp : g.arena.Path g.root w t)
    (hq : g.arena.Path g.root v t) : w = v :=
  hg.eq_of_isPrefix (hg.isPrefix_of_path ht hp) (hg.isPrefix_of_path ht hq) hp hq

/-- Every state but the start accepts a word, if the end of the path does. -/
theorem exists_accepts (hg : g.Sound) (hprod : g.Productive) (ht : g.arena.isLive t)
    (hne : t ≠ g.root) : ∃ w, g.arena.Accepts t w := by
  by_cases hmem : t ∈ g.pathStates
  · have hpath : t ∈ g.path.map Prod.snd := (List.mem_cons.1 hmem).resolve_left hne
    obtain ⟨⟨c, u⟩, hu, rfl⟩ := List.mem_map.1 hpath
    obtain ⟨p, q, hpq⟩ := List.append_of_mem hu
    obtain ⟨w, hw⟩ := hprod (by rw [hpq]; simp)
    have hall := hg.forall_links
    rw [hpq, links_append] at hall
    have hq : g.arena.Path u (q.map Prod.fst) (endOf u q) :=
      path_of_links fun l hl => hall l (List.mem_append_right _ (List.mem_cons_of_mem _ hl))
    have hend : endOf g.root g.path = endOf u q := by
      rw [hpq, endOf_append, endOf_cons]
    rw [hend] at hw
    exact ⟨_, (accepts_append_iff hq).2 hw⟩
  · exact hg.accepts ht hmem

end Sound

end WordGraph.Automaton
