import WordGraph.Arena.Walk

/-!
# The language of a state

`Arena.Path` relates two states by a word that leads from the one to the other, `Arena.Accepts` says
that a word leads to a state at which words end. Both look at the edges alone, so they say what the
searches of this library ought to find, in any graph.

* `Path.unique` — a word leads to one state at most
* `path_append_iff` — a word that is put together leads over a state in between

A graph may have edges into free slots and cycles. `Arena.Intact` and `Arena.Acyclic` exclude them for
the part that can be reached from a state.
-/

namespace WordGraph.Arena

variable {σ : Type} [Symbol σ] {a : Arena σ} {s t u : StateId} {c : σ} {w v : Word σ}

/-- `a.Path s w t`: the word `w` leads from `s` to `t`. -/
inductive Path (a : Arena σ) : StateId → Word σ → StateId → Prop
  | nil (s : StateId) : Path a s [] s
  | cons {s t u : StateId} {x : State σ} {c : σ} {w : Word σ} (hx : a.get? s = some x)
      (hc : x.edges.find? c = some t) (h : Path a t w u) : Path a s (c :: w) u

/-- A word is accepted from a state if it leads to a state at which words end. -/
def Accepts (a : Arena σ) (s : StateId) (w : Word σ) : Prop :=
  ∃ t x, a.Path s w t ∧ a.get? t = some x ∧ x.isFinal

/-- A state can be reached from another if some word leads there. -/
def Reaches (a : Arena σ) (s t : StateId) : Prop := ∃ w, a.Path s w t

/-- All that can be reached from a state are states. -/
def Intact (a : Arena σ) (s : StateId) : Prop := ∀ t, a.Reaches s t → a.isLive t

/-- No state that can be reached from a state lies on a cycle. -/
def Acyclic (a : Arena σ) (s : StateId) : Prop :=
  ∀ t w, a.Reaches s t → a.Path t w t → w = []

/-! ## Paths -/

@[simp] theorem path_nil_iff : a.Path s [] t ↔ s = t := by
  constructor
  · rintro ⟨⟩
    rfl
  · rintro rfl
    exact .nil s

theorem path_cons_iff :
    a.Path s (c :: w) u ↔
      ∃ x t, a.get? s = some x ∧ x.edges.find? c = some t ∧ a.Path t w u := by
  constructor
  · rintro ⟨⟩
    exact ⟨_, _, ‹_›, ‹_›, ‹_›⟩
  · rintro ⟨x, t, hx, hc, h⟩
    exact .cons hx hc h

theorem Path.unique (h : a.Path s w t) (h' : a.Path s w u) : t = u := by
  induction h with
  | nil s => exact path_nil_iff.1 h'
  | cons hx hc _ ih =>
    obtain ⟨y, v, hy, hv, hp⟩ := path_cons_iff.1 h'
    rw [hx] at hy
    cases hy
    rw [hc] at hv
    cases hv
    exact ih hp

theorem Path.append (h : a.Path s w t) (h' : a.Path t v u) : a.Path s (w ++ v) u := by
  induction h with
  | nil s => exact h'
  | cons hx hc _ ih => exact .cons hx hc (ih h')

theorem path_append_iff : a.Path s (w ++ v) u ↔ ∃ t, a.Path s w t ∧ a.Path t v u := by
  refine ⟨fun h => ?_, fun ⟨t, h, h'⟩ => h.append h'⟩
  induction w generalizing s with
  | nil => exact ⟨s, .nil s, h⟩
  | cons c w ih =>
    obtain ⟨x, r, hx, hc, hp⟩ := path_cons_iff.1 h
    obtain ⟨t, h, h'⟩ := ih hp
    exact ⟨t, .cons hx hc h, h'⟩

theorem Reaches.refl (s : StateId) : a.Reaches s s := ⟨[], .nil s⟩

theorem Reaches.trans (h : a.Reaches s t) (h' : a.Reaches t u) : a.Reaches s u := by
  obtain ⟨w, h⟩ := h
  obtain ⟨v, h'⟩ := h'
  exact ⟨w ++ v, h.append h'⟩

/-! ## Accepted words -/

theorem accepts_nil_iff : a.Accepts s [] ↔ ∃ x, a.get? s = some x ∧ x.isFinal := by
  simp [Accepts]

theorem accepts_append_iff (h : a.Path s w t) : a.Accepts s (w ++ v) ↔ a.Accepts t v := by
  constructor
  · rintro ⟨r, x, hp, hx, hf⟩
    obtain ⟨t', h₁, h₂⟩ := path_append_iff.1 hp
    exact ⟨r, x, h.unique h₁ ▸ h₂, hx, hf⟩
  · rintro ⟨r, x, hp, hx, hf⟩
    exact ⟨r, x, h.append hp, hx, hf⟩

/-! ## One step of a walk -/

theorem target?_eq_ok_some_iff :
    a.target? s c = .ok (some t) ↔ ∃ x, a.get? s = some x ∧ x.edges.find? c = some t := by
  unfold target?
  cases h : a.get? s with
  | none => simp [state, h, bind, Except.bind]
  | some x => simp [state, h, bind, Except.bind, pure, Except.pure]

end WordGraph.Arena
