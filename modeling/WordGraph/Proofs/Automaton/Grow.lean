import WordGraph.Proofs.Automaton.Settle

/-!
# Growing at the end of the path

A word is added by changes at the end of the path alone: new states are hung on it one after the
other, and words are made to end at the last one. What other states accept follows from what the end
accepts, because only one word leads there.

* `Sound.accepts_append_of_change`, `Sound.accepts_iff_of_change` — words through the end of the
  path, and all others, when only the end changes
* `Sound.setFinal_end` — words are made to end at the end
* `Extension` — one state is hung on the end
* `Sound.hangWithin_ok`, `Sound.hangWithin_error` — a chain of states is hung on the end
-/

namespace WordGraph.Automaton

open Arena

variable {σ : Type} [Symbol σ] {g g' : Automaton σ} {a a' : Arena σ} {s t u v child : StateId}
  {c d : σ} {p q : List (σ × StateId)} {w : Word σ} {x y : State σ}
  {limit : Option Nat}

/-! ## Changes at the end of the path -/

/-- States off the path do not notice a change at the end of the path. -/
theorem Sound.accepts_off_path_of_change (hg : g.Sound)
    (hsame : ∀ t, g.arena.isLive t → t ≠ endOf g.root g.path → a'.get? t = g.arena.get? t)
    (hlive : g.arena.isLive t) (ht : t ∉ g.pathStates) :
    a'.Accepts t w ↔ g.arena.Accepts t w := by
  refine accepts_congr (p := fun t => g.arena.isLive t ∧ t ∉ g.pathStates) ?_ ?_ ⟨hlive, ht⟩
  · rintro t ⟨hlive, ht⟩
    exact hsame t hlive (ne_endOf_of_not_mem ht)
  · rintro s c t ⟨-, hs⟩ he
    exact ⟨hg.edge_live he, hg.off_path hs he⟩

theorem Sound.edge_of_links_of_change (hg : g.Sound)
    (hsame : ∀ t, g.arena.isLive t → t ≠ endOf g.root g.path → a'.get? t = g.arena.get? t) :
    ∀ l ∈ links g.root g.path, a'.Edge l.1 l.2.1 l.2.2 := by
  intro l hl
  have he := hg.forall_links l hl
  obtain ⟨rank, hr⟩ := hg.ranked
  refine (Edge.congr (hsame _ he.isLive fun hend => ?_)).2 he
  have hlt := rank_endOf_lt_of_links hr hg.forall_links hl
  rw [← hend] at hlt
  exact Nat.lt_irrefl _ hlt

/-- A word that starts with the last word is accepted if the end of the path accepts the rest. -/
theorem Sound.accepts_append_of_change (hg : g.Sound)
    (hsame : ∀ t, g.arena.isLive t → t ≠ endOf g.root g.path → a'.get? t = g.arena.get? t) :
    a'.Accepts g.root (g.lastWord ++ w) ↔ a'.Accepts (endOf g.root g.path) w :=
  accepts_append_iff (path_of_links (hg.edge_of_links_of_change hsame))

/-- A word that does not start with the last word is accepted if it was accepted. -/
theorem Sound.accepts_iff_of_change (hg : g.Sound)
    (hsame : ∀ t, g.arena.isLive t → t ≠ endOf g.root g.path → a'.get? t = g.arena.get? t)
    (hw : ¬g.lastWord <+: w) : a'.Accepts g.root w ↔ g.arena.Accepts g.root w := by
  -- the same for any state on the path and the rest of the path behind it
  suffices h : ∀ q p, g.path = p ++ q → ∀ w, ¬q.map Prod.fst <+: w →
      (a'.Accepts (endOf g.root p) w ↔ g.arena.Accepts (endOf g.root p) w) from
    h g.path [] rfl w hw
  intro q
  induction q with
  | nil =>
    intro p _ w hw
    exact absurd (List.nil_prefix) hw
  | cons e q ih =>
    obtain ⟨c, t⟩ := e
    intro p hp w hw
    have hlinks : links g.root g.path = links g.root p ++ (endOf g.root p, c, t) :: links t q := by
      rw [hp, links_append]
      rfl
    have hmem : (endOf g.root p, c, t) ∈ links g.root g.path := by
      rw [hlinks]
      exact List.mem_append_right _ (List.mem_cons_self ..)
    have hedge := hg.edge_of_links hmem
    have hedge' := hg.edge_of_links_of_change hsame _ hmem
    have hget : a'.get? (endOf g.root p) = g.arena.get? (endOf g.root p) := by
      refine hsame _ hedge.isLive fun hend => ?_
      obtain ⟨rank, hr⟩ := hg.ranked
      have hlt := rank_endOf_lt_of_links hr hg.forall_links hmem
      rw [← hend] at hlt
      exact Nat.lt_irrefl _ hlt
    cases w with
    | nil => rw [accepts_nil_iff, accepts_nil_iff, hget]
    | cons d w =>
      by_cases hd : d = c
      · subst hd
        rw [hedge.accepts_cons_iff, hedge'.accepts_cons_iff]
        have := ih (p ++ [(d, t)]) (by rw [hp, List.append_assoc]; rfl) w
          (fun h => hw (List.cons_prefix_cons.2 ⟨rfl, h⟩))
        rwa [endOf_concat] at this
      · rw [accepts_cons_iff, accepts_cons_iff]
        refine exists_congr fun u => ?_
        rw [Edge.congr hget]
        refine and_congr_right fun he => ?_
        exact hg.accepts_off_path_of_change hsame (hg.edge_live he) (hg.off_path_of_ne hp he hd)

/-! ## Ending words at the end of the path -/

theorem Sound.setFinal_end_sound (hg : g.Sound) (hopen : g.Open)
    (h : g.arena.setFinal (endOf g.root g.path) true = .ok a') :
    Sound { g with arena := a' } := by
  obtain ⟨x, hx, hget⟩ := get?_of_setFinal h
  have hoff : ∀ {t}, t ∉ g.pathStates → a'.get? t = g.arena.get? t := by
    intro t ht
    rw [hget, if_neg (ne_endOf_of_not_mem ht)]
  refine ⟨hg.tidy.setFinal h, (isLive_of_setFinal_iff h).2 hg.root_live, ?_, ?_, ?_, ?_, ?_, ?_⟩
  · exact fun he => (isLive_of_setFinal_iff h).2 (hg.edge_live ((edge_of_setFinal_iff h).1 he))
  · obtain ⟨rank, hr⟩ := hg.ranked
    exact ⟨rank, fun he => hr ((edge_of_setFinal_iff h).1 he)⟩
  · exact fun ht => (edge_of_setFinal_iff h).trans (hg.edge_iff ht)
  · intro p t hr
    obtain ⟨z, hz, hp⟩ := hg.of_register hr
    exact ⟨z, (hoff (hopen p t hr)).trans hz, hp⟩
  · exact fun hz ht => hg.registered ((hoff ht).symm.trans hz) ht
  · intro t ht hmem
    have hlive := (isLive_of_setFinal_iff h).1 ht
    obtain ⟨w, hw⟩ := hg.accepts hlive hmem
    refine ⟨w, (hg.accepts_off_path_of_change ?_ hlive hmem).2 hw⟩
    intro t _ ht
    rw [hget, if_neg ht]

/-- Words are made to end at the end of the path: the last word is accepted as well. -/
theorem Sound.setFinal_end (hg : g.Sound) (hopen : g.Open)
    (h : g.arena.setFinal (endOf g.root g.path) true = .ok a') :
    Growing { g with arena := a' } ∧
      (∃ x, a'.get? (endOf g.root g.path) = some x ∧ x.isFinal) ∧ a'.live = g.arena.live ∧
      ∀ w, a'.Accepts g.root w ↔ g.arena.Accepts g.root w ∨ w = g.lastWord := by
  obtain ⟨x, hx, hget⟩ := get?_of_setFinal h
  have hend : a'.get? (endOf g.root g.path) = some { x with isFinal := true } := by
    rw [hget, if_pos rfl]
  have hnil : a'.Accepts (endOf g.root g.path) [] := (accepts_nil_iff_of_get? hend).2 rfl
  have hsame : ∀ t, g.arena.isLive t → t ≠ endOf g.root g.path →
      a'.get? t = g.arena.get? t := by
    intro t _ ht
    rw [hget, if_neg ht]
  refine ⟨⟨hg.setFinal_end_sound hopen h, hopen, fun _ => ⟨[], hnil⟩⟩, ⟨_, hend, rfl⟩,
    live_of_setFinal h, fun w => ?_⟩
  by_cases hw : g.lastWord <+: w
  · obtain ⟨v, rfl⟩ := hw
    rw [hg.accepts_append_of_change hsame, accepts_append_iff hg.path_lastWord]
    cases v with
    | nil => simp [hnil]
    | cons d v =>
      rw [accepts_cons_iff, accepts_cons_iff, or_iff_left (by simp)]
      refine exists_congr fun u => ?_
      rw [edge_of_setFinal_iff h]
      refine and_congr_right fun he => ?_
      exact hg.accepts_off_path_of_change hsame (hg.edge_live he) (hg.off_path_of_end he)
  · rw [hg.accepts_iff_of_change hsame hw, or_iff_left]
    rintro rfl
    exact hw (List.prefix_refl _)

/-- Making words end at a state puts no state out of reach. -/
theorem Trim.setFinal (ht : g.Trim) {b : Bool} (h : g.arena.setFinal s b = .ok a') :
    Trim { g with arena := a' } := by
  intro t hlive
  obtain ⟨w, hw⟩ := ht t ((isLive_of_setFinal_iff h).1 hlive)
  exact ⟨w, hw.mono (edge_of_setFinal_iff h).2⟩

/-! ## Hanging a state on the end of the path -/

/-- An arena is that of an automaton but for a new state that hangs on the end of the path. -/
structure Extension (g : Automaton σ) (c : σ) (child : StateId) (a' : Arena σ) : Prop where
  fresh : g.arena.get? child = none
  tidy : a'.Tidy
  live_eq : a'.live = g.arena.live + 1
  get?_child : ∃ n, a'.get? child = some ⟨n, false, ∅⟩
  get?_of_ne : ∀ {t}, t ≠ child → t ≠ endOf g.root g.path → a'.get? t = g.arena.get? t
  isLive_iff : ∀ {t}, a'.isLive t ↔ g.arena.isLive t ∨ t = child
  edge_iff : ∀ {s d t}, a'.Edge s d t ↔
    if s = endOf g.root g.path ∧ d = c then t = child else g.arena.Edge s d t
  accepts_nil_iff : a'.Accepts (endOf g.root g.path) [] ↔
    g.arena.Accepts (endOf g.root g.path) []

/-- A new state can be hung on the end of the path if there is a slot for it. -/
theorem Sound.exists_extension (hg : g.Sound) (c : σ) {a : Arena σ}
    (hc : g.arena.createWithin limit false = .ok (child, a)) :
    ∃ old a', a.setEdge (endOf g.root g.path) c child = .ok (old, a') ∧
      (old.isSome ↔ ∃ t, g.arena.Edge (endOf g.root g.path) c t) ∧ g.Extension c child a' := by
  obtain ⟨y, hy⟩ := isLive_iff.1 (hg.isLive_of_mem_pathStates (endOf_mem_pathStates g))
  obtain ⟨hfresh, htidy, hget⟩ := createWithin_spec hg.tidy hc
  have hne : endOf g.root g.path ≠ child := by
    intro he
    rw [he, hfresh] at hy
    cases hy
  have hy' : a.get? (endOf g.root g.path) = some y := by rw [hget, if_neg hne, hy]
  have hchild : a.get? child = some ⟨g.arena.nextSerial, false, ∅⟩ := by rw [hget, if_pos rfl]
  have hput := fun t => get?_put (t := t) (x := some { y with edges := y.edges.set c child })
    (slot_lt_of_get? hy')
  have hend : (a.put (endOf g.root g.path) (some { y with edges := y.edges.set c child })).get?
      (endOf g.root g.path) = some { y with edges := y.edges.set c child } := by
    rw [hput, if_pos rfl]
  refine ⟨y.edges.find? c, _, setEdge_eq_ok_iff.2 ⟨isLive_of_get? hchild, y, hy', rfl, rfl⟩, ?_,
    hfresh, htidy.put hy' _, ?_, ⟨g.arena.nextSerial, ?_⟩, ?_, ?_, ?_, ?_⟩
  · rw [Option.isSome_iff_exists]
    exact exists_congr fun t => ⟨fun h => ⟨y, hy, h⟩, fun ⟨z, hz, h⟩ => by
      rw [hy] at hz
      cases hz
      exact h⟩
  · show a.live = g.arena.live + 1
    exact live_createWithin hc
  · rw [hput, if_neg hne.symm, hchild]
  · intro t ht hte
    rw [hput, if_neg hte, hget, if_neg ht]
  · intro t
    rw [Arena.isLive_iff, Arena.isLive_iff, hput, hget]
    by_cases hte : t = endOf g.root g.path
    · simp [hte, hy]
    · by_cases ht : t = child
      · simp [ht, hne.symm]
      · simp [hte, ht]
  · intro s d t
    rw [Edge, hput]
    by_cases hse : s = endOf g.root g.path
    · subst hse
      by_cases hd : d = c
      · subst hd
        simp [eq_comm]
      · simp [hd, Edge, hy, EdgeTable.find?_set_of_ne hd]
    · by_cases hs : s = child
      · simp [hs, hne.symm, hchild, Edge, hfresh]
      · simp [hse, hget, hs, Edge]
  · rw [accepts_nil_iff_of_get? hend, accepts_nil_iff_of_get? hy]

namespace Extension

variable (h : g.Extension c child a')

include h

theorem not_isLive_child : ¬g.arena.isLive child := by
  simp [Arena.isLive, h.fresh]

theorem ne_child_of_isLive (ht : g.arena.isLive t) : t ≠ child := by
  rintro rfl
  exact h.not_isLive_child ht

theorem get?_of_isLive (ht : g.arena.isLive t) (hne : t ≠ endOf g.root g.path) :
    a'.get? t = g.arena.get? t :=
  h.get?_of_ne (h.ne_child_of_isLive ht) hne

/-- An edge is the one to the new state or an old one. -/
theorem edge_cases (he : a'.Edge s d t) :
    s = endOf g.root g.path ∧ d = c ∧ t = child ∨ g.arena.Edge s d t := by
  have he := h.edge_iff.1 he
  split at he
  · next hsd => exact .inl ⟨hsd.1, hsd.2, he⟩
  · exact .inr he

theorem edge_child : a'.Edge (endOf g.root g.path) c child :=
  h.edge_iff.2 (by rw [if_pos ⟨rfl, rfl⟩])

theorem not_accepts_child : ¬a'.Accepts child w := by
  obtain ⟨n, hn⟩ := h.get?_child
  cases w with
  | nil => simp [accepts_nil_iff_of_get? hn]
  | cons d w =>
    rw [accepts_cons_iff]
    rintro ⟨t, he, -⟩
    rw [edge_iff_mem hn] at he
    simp at he

omit h in
theorem mem_pathStates_extended (g : Automaton σ) (a' : Arena σ) (c : σ) (child : StateId) :
    t ∈ ({ g with arena := a', path := g.path ++ [(c, child)] } : Automaton σ).pathStates ↔
      t ∈ g.pathStates ∨ t = child :=
  mem_pathStates_concat rfl

/-- The edges to the states on the longer path. -/
theorem edge_iff_links (hg : g.Sound) (ht : t ∈ g.pathStates ∨ t = child) :
    a'.Edge s d t ↔ (s, d, t) ∈ links g.root (g.path ++ [(c, child)]) := by
  rw [links_concat, List.mem_append, List.mem_singleton, Prod.mk.injEq, Prod.mk.injEq]
  constructor
  · intro he
    rcases h.edge_cases he with he | he
    · exact .inr he
    · refine .inl ((hg.edge_iff (ht.resolve_right ?_)).1 he)
      exact h.ne_child_of_isLive (hg.edge_live he)
  · rintro (he | ⟨rfl, rfl, rfl⟩)
    · refine h.edge_iff.2 ?_
      rw [if_neg]
      · exact hg.edge_of_links he
      -- a link of the path does not start at its end
      · rintro ⟨rfl, -⟩
        obtain ⟨rank, hr⟩ := hg.ranked
        exact Nat.lt_irrefl _ (rank_endOf_lt_of_links hr hg.forall_links he)
    · exact h.edge_child

/-- A state is hung on the end of the path. -/
theorem sound (hg : g.Sound) (hopen : g.Open) :
    Sound { g with arena := a', path := g.path ++ [(c, child)] } where
  tidy := h.tidy
  root_live := h.isLive_iff.2 (.inl hg.root_live)
  edge_live he := by
    refine h.isLive_iff.2 ?_
    rcases h.edge_cases he with ⟨-, -, rfl⟩ | he
    · exact .inr rfl
    · exact .inl (hg.edge_live he)
  ranked := by
    obtain ⟨rank, hr⟩ := hg.ranked
    refine ⟨fun t => if t = child then 0 else rank t + 1, ?_⟩
    intro s d t he
    dsimp only
    rcases h.edge_cases he with ⟨rfl, -, rfl⟩ | he
    · rw [if_pos rfl, if_neg (h.ne_child_of_isLive
        (hg.isLive_of_mem_pathStates (endOf_mem_pathStates g)))]
      exact Nat.succ_pos _
    · rw [if_neg (h.ne_child_of_isLive (hg.edge_live he)),
        if_neg (h.ne_child_of_isLive he.isLive)]
      exact Nat.succ_lt_succ (hr he)
  edge_iff ht := h.edge_iff_links hg ((mem_pathStates_extended g a' c child).1 ht)
  of_register := by
    intro p t hr
    obtain ⟨z, hz, hp⟩ := hg.of_register hr
    refine ⟨z, ?_, hp⟩
    show a'.get? t = some z
    rw [h.get?_of_isLive (isLive_of_get? hz) (ne_endOf_of_not_mem (hopen p t hr)), hz]
  registered := by
    intro t z hz ht
    rw [mem_pathStates_extended, not_or] at ht
    rw [h.get?_of_ne ht.2 (ne_endOf_of_not_mem ht.1)] at hz
    exact hg.registered hz ht.1
  accepts := by
    intro t hlive ht
    rw [mem_pathStates_extended, not_or] at ht
    have hlive := (h.isLive_iff.1 hlive).resolve_right ht.2
    obtain ⟨w, hw⟩ := hg.accepts hlive ht.1
    exact ⟨w, (hg.accepts_off_path_of_change (fun _ => h.get?_of_isLive) hlive ht.1).2 hw⟩

theorem isOpen (hg : g.Sound) (hopen : g.Open) :
    Open { g with arena := a', path := g.path ++ [(c, child)] } := by
  intro p t hr ht
  obtain ⟨z, hz, -⟩ := hg.of_register hr
  rcases (mem_pathStates_extended g a' c child).1 ht with ht | ht
  · exact hopen p t hr ht
  · exact h.ne_child_of_isLive (isLive_of_get? hz) ht

/-- The words along the edge that the new state takes are lost, and all others stay. -/
theorem accepts_root_iff (hg : g.Sound) :
    a'.Accepts g.root w ↔ g.arena.Accepts g.root w ∧ ¬g.lastWord ++ [c] <+: w := by
  have hsame : ∀ t, g.arena.isLive t → t ≠ endOf g.root g.path →
      a'.get? t = g.arena.get? t := fun _ => h.get?_of_isLive
  by_cases hw : g.lastWord <+: w
  · obtain ⟨v, rfl⟩ := hw
    rw [hg.accepts_append_of_change hsame, accepts_append_iff hg.path_lastWord,
      List.prefix_append_right_inj]
    cases v with
    | nil => simp [h.accepts_nil_iff]
    | cons d v =>
      rw [List.cons_prefix_cons, accepts_cons_iff, accepts_cons_iff]
      by_cases hd : c = d
      · subst hd
        simp only [List.nil_prefix, and_self, not_true, and_false, iff_false]
        rintro ⟨t, he, hv⟩
        rw [he.unique h.edge_child] at hv
        exact h.not_accepts_child hv
      · simp only [hd, false_and, not_false_eq_true, and_true]
        refine exists_congr fun t => ?_
        rw [h.edge_iff, if_neg fun hsd => hd hsd.2.symm]
        refine and_congr_right fun he => ?_
        exact hg.accepts_off_path_of_change hsame (hg.edge_live he) (hg.off_path_of_end he)
  · rw [hg.accepts_iff_of_change hsame hw, and_iff_left]
    exact fun hc => hw ((List.prefix_append _ _).trans hc)

theorem not_edge_child : ¬a'.Edge child d t := by
  obtain ⟨n, hn⟩ := h.get?_child
  rw [edge_iff_mem hn]
  simp

omit h in
/-- Where every state was in reach, so it is after a state was hung, unless an edge was taken. -/
theorem trim (h : g.Extension c child a')
    (hno : ∀ t, ¬g.arena.Edge (endOf g.root g.path) c t) (hg : g.Sound) (ht : g.Trim) :
    Trim { g with arena := a', path := g.path ++ [(c, child)] } := by
  have hedge : ∀ {s d t}, g.arena.Edge s d t → a'.Edge s d t := by
    intro s d t he
    rw [h.edge_iff, if_neg]
    · exact he
    · rintro ⟨rfl, rfl⟩
      exact hno t he
  intro t hlive
  rcases h.isLive_iff.1 hlive with hlive | rfl
  · obtain ⟨w, hw⟩ := ht t hlive
    exact ⟨w, hw.mono hedge⟩
  · exact Reaches.trans ⟨_, hg.path_lastWord.mono hedge⟩ h.edge_child.reaches

end Extension

/-! ## Hanging a chain on the end of the path -/

/-- An automaton is another one with a chain of new states for a word on the end of the path. -/
structure Hung (g : Automaton σ) (w : Word σ) (g' : Automaton σ) : Prop where
  sound : g'.Sound
  isOpen : g'.Open
  root_eq : g'.root = g.root
  lastWord_eq : g'.lastWord = g.lastWord ++ w
  live_eq : g'.arena.live = g.arena.live + w.length
  /-- What is lost are the words along the edge that the chain takes. -/
  accepts_iff : ∀ v, g'.arena.Accepts g.root v ↔
    g.arena.Accepts g.root v ∧ ∀ c ∈ w.head?, ¬g.lastWord ++ [c] <+: v
  /-- If the chain takes no edge, no state gets out of reach. -/
  trim : (∀ c ∈ w.head?, ∀ t, ¬g.arena.Edge (endOf g.root g.path) c t) → g.Trim → g'.Trim

theorem Hung.refl (hg : g.Sound) (hopen : g.Open) : Hung g [] g :=
  ⟨hg, hopen, rfl, (List.append_nil _).symm, rfl, fun v => by simp, fun _ => id⟩

/-- A chain is a state with the rest of the chain on it. -/
theorem Extension.hung (h : g.Extension c child a') (hg : g.Sound) {g' : Automaton σ}
    (hg' : Hung { g with arena := a', path := g.path ++ [(c, child)] } w g') :
    Hung g (c :: w) g' where
  sound := hg'.sound
  isOpen := hg'.isOpen
  root_eq := hg'.root_eq
  lastWord_eq := by
    rw [hg'.lastWord_eq, lastWord, List.map_append, List.append_assoc]
    rfl
  live_eq := by
    rw [hg'.live_eq, List.length_cons]
    show a'.live + w.length = _
    rw [h.live_eq]
    omega
  accepts_iff v := by
    have hlast : lastWord { g with arena := a', path := g.path ++ [(c, child)] } =
        g.lastWord ++ [c] := List.map_append
    rw [hg'.accepts_iff, hlast, h.accepts_root_iff hg, and_assoc]
    refine and_congr_right fun _ => ?_
    simp only [List.head?_cons, Option.mem_def, Option.some.injEq, forall_eq']
    -- the words along the second edge go along the first
    refine ⟨fun hv => hv.1, fun hv => ⟨hv, fun d _ hd => hv ?_⟩⟩
    exact (List.prefix_append _ _).trans hd
  trim hno ht := by
    refine hg'.trim (fun d _ t he => h.not_edge_child (d := d) (t := t) ?_)
      (h.trim (hno c rfl) hg ht)
    rwa [endOf_concat] at he

/-- Hanging a chain answers the chain and whether there was an edge for its first symbol. -/
theorem Sound.hangWithin_ok (hg : g.Sound) (hopen : g.Open) {chain chain' : List (σ × StateId)}
    {b b' : Bool}
    (h : hangWithin limit g.arena (endOf g.root g.path) chain b w = .ok (a', s, chain', b')) :
    ∃ new, chain' = chain.reverse ++ new ∧ s = endOf g.root (g.path ++ new) ∧
      Hung g w { g with arena := a', path := g.path ++ new } ∧
      (b' ↔ b ∨ ∃ c ∈ w.head?, ∃ t, g.arena.Edge (endOf g.root g.path) c t) := by
  induction w generalizing g chain b with
  | nil =>
    cases h
    refine ⟨[], (List.append_nil _).symm, by rw [List.append_nil], ?_, by simp⟩
    rw [List.append_nil]
    exact Hung.refl hg hopen
  | cons c w ih =>
    rw [hangWithin] at h
    cases hc : g.arena.createWithin limit false with
    | error f =>
      rw [hc] at h
      cases h
    | ok made =>
      obtain ⟨child, a⟩ := made
      obtain ⟨old, a₁, hset, hold, hext⟩ := hg.exists_extension c hc
      rw [hc] at h
      simp only [bind, Except.bind, hset] at h
      have hend : endOf g.root (g.path ++ [(c, child)]) = child := endOf_concat ..
      obtain ⟨new, hchain, hs, hhung, hb⟩ := ih (hext.sound hg hopen) (hext.isOpen hg hopen)
        (by rw [hend]; exact h)
      refine ⟨(c, child) :: new, ?_, ?_, ?_, ?_⟩
      · rw [hchain, List.reverse_cons, List.append_assoc]
        rfl
      · rw [hs, List.append_assoc]
        rfl
      · rw [List.append_assoc] at hhung
        exact hext.hung hg hhung
      · have hno : ¬∃ d ∈ w.head?, ∃ t, a₁.Edge (endOf g.root (g.path ++ [(c, child)])) d t := by
          rintro ⟨d, -, t, he⟩
          rw [hend] at he
          exact hext.not_edge_child he
        rw [hb, or_iff_left hno, Bool.or_eq_true, hold]
        simp

/-- Only a lack of slots keeps a chain from being hung. -/
theorem Sound.hangWithin_error (hg : g.Sound) (hopen : g.Open) {chain : List (σ × StateId)} {b : Bool}
    {f : Fault} (h : hangWithin limit g.arena (endOf g.root g.path) chain b w = .error f) :
    f = .arenaFull ∧ ∃ n ∈ limit, n < g.arena.live + w.length := by
  induction w generalizing g chain b with
  | nil => cases h
  | cons c w ih =>
    rw [hangWithin] at h
    cases hc : g.arena.createWithin limit false with
    | error f' =>
      rw [hc] at h
      cases h
      obtain ⟨hf, n, hn, hlive⟩ := createWithin_eq_error hg.tidy hc
      refine ⟨hf, n, hn, ?_⟩
      rw [List.length_cons]
      omega
    | ok made =>
      obtain ⟨child, a⟩ := made
      obtain ⟨old, a₁, hset, -, hext⟩ := hg.exists_extension c hc
      rw [hc] at h
      simp only [bind, Except.bind, hset] at h
      have hend : endOf g.root (g.path ++ [(c, child)]) = child := endOf_concat ..
      obtain ⟨hf, n, hn, hlive⟩ :=
        ih (hext.sound hg hopen) (hext.isOpen hg hopen) (by rw [hend]; exact h)
      refine ⟨hf, n, hn, ?_⟩
      have : a₁.live = g.arena.live + 1 := hext.live_eq
      simp only at hlive
      rw [List.length_cons]
      omega

end WordGraph.Automaton
