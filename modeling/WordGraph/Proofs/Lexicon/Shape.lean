import Mathlib
import WordGraph.Proofs.Dump.Codec
import WordGraph.Proofs.Dump.Load

/-!
# The shape of lexicons

Whatever operations have led to a lexicon, from nothing or from any dump that can be loaded, in order
or not, its graph has the shape that growing it relies on, and no two states are there for the same
words.

* `step_of_run`, `Reachable.after` — a change is an operation, and any number of them lead to a lexicon
* `Reachable.valid` — a lexicon is valid
* `Shape` — the states, the path of the last word, and the register
* `Reachable.shape` — a lexicon has that shape
* `Reachable.minimal` — its states accept different words
-/

namespace WordGraph.Lexicon

open Arena Automaton

variable {σ : Type} [Symbol σ] {l l' : Lexicon σ}

/-- A change that is not refused is an operation. -/
theorem step_of_run {c : Change σ} {b : Option Bool} (h : l.run c = .ok (b, l')) : Step l l' := by
  cases c with
  | add w =>
    obtain ⟨r, hr, ⟨⟩⟩ := map_eq_ok_iff.1 h
    exact .add hr
  | addUnchecked w =>
    obtain ⟨r, hr, ⟨⟩⟩ := map_eq_ok_iff.1 h
    exact .addUnchecked hr
  | close =>
    obtain ⟨r, hr, ⟨⟩⟩ := map_eq_ok_iff.1 h
    exact .close hr
  | clear =>
    obtain ⟨r, hr, ⟨⟩⟩ := map_eq_ok_iff.1 h
    exact .clear hr
  | number =>
    obtain ⟨r, hr, ⟨⟩⟩ := map_eq_ok_iff.1 h
    exact .numbering hr

/-- A change is an operation, or leaves the lexicon as it is. -/
theorem Reachable.next (h : Reachable l) (c : Change σ) : Reachable (l.next c) := by
  unfold Lexicon.next
  split
  · next hr => exact .step h (step_of_run hr)
  · exact h

theorem Reachable.after (h : Reachable l) (cs : List (Change σ)) : Reachable (l.after cs) := by
  induction cs generalizing l with
  | nil => exact h
  | cons c cs ih => exact ih (h.next c)

/-- What is loaded are the bytes of contents that can be written. -/
theorem exists_contents_of_load [SymbolCode σ] {identity : Nat} {bs : Bytes}
    (h : (load identity bs).result = .ok l) :
    ∃ k : Dump.Contents σ, Dump.Contents.ofBytes bs = .ok k ∧ k.WellFormed ∧ bs = k.bytes ∧
      (ofContents identity k).result = .ok l := by
  unfold load at h
  rw [Run.result_bind, bind_eq_ok_iff] at h
  obtain ⟨k, hk, hl⟩ := h
  rw [Run.result_liftM_format_eq_ok_iff] at hk
  obtain ⟨hwf, hbytes⟩ := Dump.Contents.ofBytes_eq_ok_iff.1 hk
  exact ⟨k, hk, hwf, hbytes, hl⟩

/-- A loaded lexicon is valid. -/
theorem valid_of_load [SymbolCode σ] {identity : Nat} {bs : Bytes}
    (h : (load identity bs).result = .ok l) : l.Valid := by
  obtain ⟨k, -, hwf, -, hl⟩ := exists_contents_of_load h
  exact valid_of_ofContents hwf.within hwf.sorted hl

/-- **A lexicon is valid**, however it came about. -/
theorem Reachable.valid (h : Reachable l) : l.Valid := by
  induction h with
  | new identity => exact .new identity
  | load h => exact valid_of_load h
  | step _ hs ih => exact ih.step hs

/-- The shape of a lexicon: its states, the path of the last word, and its register. -/
structure Shape (l : Lexicon σ) : Prop where
  /-- Every edge leads to a state. -/
  edge_live : ∀ s c t, l.arena.Edge s c t → l.arena.isLive t
  /-- No state lies on a cycle, in reach or not. -/
  acyclic : ∀ s w, l.arena.Path s w s → w = []
  /-- The path starts at the start state, which lives and to which no edge leads. -/
  root_live : l.arena.isLive l.root
  not_edge_root : ∀ s c, ¬l.arena.Edge s c l.root
  /-- Each state on the path is the target of an edge of the state before it. -/
  edge_of_link : ∀ s c t, (s, c, t) ∈ links l.root l.automaton.path → l.arena.Edge s c t
  /-- That is the only edge that leads to it. -/
  unique_edge : ∀ t ∈ l.automaton.path.map Prod.snd, ∃! e : StateId × σ, l.arena.Edge e.1 e.2 t
  /-- The register holds states under their kinds. -/
  of_register : ∀ p t, l.automaton.register.get? p = some t →
    ∃ x, l.arena.get? t = some x ∧ x.fingerprint = p
  /-- Every state off the path is the registered one of its kind. -/
  registered : ∀ t x, l.arena.get? t = some x → t ∉ l.automaton.pathStates →
    l.automaton.register.get? x.fingerprint = some t
  /-- No state on the path is registered as long as words can be added. -/
  not_registered : l.lifecycle ≠ .closed → ∀ p t, l.automaton.register.get? p = some t →
    t ∉ l.automaton.pathStates
  /-- Every state but the start accepts a word. -/
  accepts : ∀ t, l.arena.isLive t → t ≠ l.root → ∃ w, l.arena.Accepts t w
  /-- The last word ends at the end of the path. -/
  end_final : l.lifecycle = .active →
    ∃ x, l.arena.get? (endOf l.root l.automaton.path) = some x ∧ x.isFinal

/-- A state on the path is the target of one edge. -/
theorem Valid.existsUnique_edge (h : l.Valid) {t : StateId}
    (ht : t ∈ l.automaton.path.map Prod.snd) :
    ∃! e : StateId × σ, l.arena.Edge e.1 e.2 t := by
  obtain ⟨⟨s, c, u⟩, hl, rfl⟩ := exists_link l.root ht
  refine ⟨(s, c), h.sound.edge_of_links hl, ?_⟩
  rintro ⟨s', c'⟩ he
  have hl' := (h.sound.edge_iff (List.mem_cons_of_mem _ ht)).1 he
  obtain ⟨rank, hr⟩ := h.sound.ranked
  exact source_unique_of_links hr h.sound.forall_links hl' hl

/-- **A lexicon keeps its shape over every sequence of operations.** -/
theorem Reachable.shape (h : Reachable l) : l.Shape where
  edge_live _ _ _ he := h.valid.sound.edge_live he
  acyclic s w hw := by
    obtain ⟨rank, hr⟩ := h.valid.sound.ranked
    exact hr.acyclic hw
  root_live := h.valid.sound.root_live
  not_edge_root _ _ := h.valid.sound.not_edge_root
  edge_of_link _ _ _ hl := h.valid.sound.edge_of_links hl
  unique_edge _ ht := h.valid.existsUnique_edge ht
  of_register _ _ hr := h.valid.sound.of_register hr
  registered _ _ hx ht := h.valid.sound.registered hx ht
  not_registered hl := h.valid.isOpen hl
  accepts _ ht hne := h.valid.sound.exists_accepts h.valid.productive ht hne
  end_final hl := h.valid.end_final hl

/-- The word 24 takes the edge for 2 and with it the word 23 away. The states that 23 led over stay, as
13 shares them. -/
theorem shape_of_overwritten :
    ∃ l₂ l : Lexicon UInt8, l₂ = (new 0).after [.addUnchecked [2, 3], .addUnchecked [1, 3]] ∧
      l = l₂.after [.addUnchecked [2, 4]] ∧ l₂.Holds [2, 3] ∧ ¬l.Holds [2, 3] ∧ l.Shape ∧
      l.automaton.pathStates = [⟨0⟩, ⟨3⟩, ⟨4⟩] ∧
      (∃! e : StateId × UInt8, l.arena.Edge e.1 e.2 ⟨4⟩) ∧
      ∃ x, l.arena.get? ⟨1⟩ = some x ∧ l.automaton.register.get? x.fingerprint = some ⟨1⟩ := by
  obtain ⟨l₂, hl₂⟩ : ∃ l₂ : Lexicon UInt8,
      l₂ = (new 0).after [.addUnchecked [2, 3], .addUnchecked [1, 3]] := ⟨_, rfl⟩
  obtain ⟨l, hl⟩ : ∃ l : Lexicon UInt8, l = l₂.after [.addUnchecked [2, 4]] := ⟨_, rfl⟩
  have hrun : (l₂.arena.listing l₂.root, l.arena.listing l.root, l.automaton.path,
      l.automaton.pathStates, l.arena.isLive ⟨1⟩) =
        ([[1, 3], [2, 3]], [[1, 3], [2, 4]], [(2, ⟨3⟩), (4, ⟨4⟩)], [⟨0⟩, ⟨3⟩, ⟨4⟩], true) := by
    subst hl hl₂
    cbv
  simp only [Prod.mk.injEq] at hrun
  obtain ⟨hwords₂, hwords, hpath, hstates, hlive⟩ := hrun
  have hreach₂ : l₂.Reachable := hl₂ ▸ .after (.new 0) _
  have hreach : l.Reachable := hl ▸ hreach₂.after _
  have hshape := Reachable.shape hreach
  obtain ⟨x, hx⟩ := isLive_iff.1 hlive
  refine ⟨l₂, l, hl₂, hl, ?_, ?_, hshape, hstates, hshape.unique_edge _ ?_, x, hx,
    hshape.registered _ x hx ?_⟩
  · rw [← hreach₂.valid.mem_listing_iff, hwords₂]
    decide
  · rw [← hreach.valid.mem_listing_iff, hwords]
    decide
  · rw [hpath]
    decide
  · rw [hstates]
    decide

/-! ## Minimality -/

/-- **States accept different words**: all of them in a closed lexicon, those off the path of the last
word in any lexicon. -/
theorem Reachable.minimal (h : Reachable l) :
    (∀ s t, l.arena.Reaches l.root s → l.arena.Reaches l.root t →
      s ∉ l.automaton.pathStates → t ∉ l.automaton.pathStates → s ≠ t →
      {w | l.arena.Accepts s w} ≠ {w | l.arena.Accepts t w}) ∧
    (l.lifecycle = .closed → ∀ s t, l.arena.Reaches l.root s → l.arena.Reaches l.root t → s ≠ t →
      {w | l.arena.Accepts s w} ≠ {w | l.arena.Accepts t w}) := by
  have hvalid := h.valid
  refine ⟨fun s t hs ht hs' ht' hne heq => hne ?_, fun hl s t hs ht hne heq => hne ?_⟩
  · exact hvalid.sound.eq_of_accepts_iff (hvalid.sound.dag_root.intact s hs)
      (hvalid.sound.dag_root.intact t ht) hs' ht' fun w => Set.ext_iff.1 heq w
  · exact hvalid.eq_of_closed hl hs ht fun w => Set.ext_iff.1 heq w

/-- As long as the word 22 is the last one, the states of 1 and 2 accept the same words. With 3 behind
it, the state of 2 is merged into that of 1; with closing, the state of 3 into that of 12. -/
theorem minimal_of_merged :
    ∃ l₂ l l' : Lexicon UInt8, l₂ = (new 0).after [.add [1, 2], .add [2, 2]] ∧
      l = l₂.after [.add [3]] ∧ l' = l.after [.close] ∧
      (l₂.stateCount, l.stateCount, l'.stateCount) = (5, 4, 3) ∧
      {w | l₂.arena.Accepts ⟨1⟩ w} = {w | l₂.arena.Accepts ⟨3⟩ w} ∧
      {w | l.arena.Accepts ⟨1⟩ w} ≠ {w | l.arena.Accepts ⟨2⟩ w} ∧
      ∀ s t, l'.arena.Reaches l'.root s → l'.arena.Reaches l'.root t → s ≠ t →
        {w | l'.arena.Accepts s w} ≠ {w | l'.arena.Accepts t w} := by
  obtain ⟨l₂, hl₂⟩ : ∃ l₂ : Lexicon UInt8, l₂ = (new 0).after [.add [1, 2], .add [2, 2]] := ⟨_, rfl⟩
  obtain ⟨l, hl⟩ : ∃ l : Lexicon UInt8, l = l₂.after [.add [3]] := ⟨_, rfl⟩
  obtain ⟨l', hl'⟩ : ∃ l' : Lexicon UInt8, l' = l.after [.close] := ⟨_, rfl⟩
  have hcounts : ((l₂.stateCount, l.stateCount, l'.stateCount), l'.lifecycle) =
      ((5, 4, 3), .closed) := by
    subst hl' hl hl₂
    cbv
  have htwo : (l₂.arena.target? l₂.root 1, l₂.arena.target? l₂.root 2, l₂.arena.listing ⟨1⟩,
      l₂.arena.listing ⟨3⟩) = (.ok (some ⟨1⟩), .ok (some ⟨3⟩), [[2]], [[2]]) := by
    subst hl₂
    cbv
  have hthree : (l.arena.target? l.root 1, l.arena.target? ⟨1⟩ 2, l.automaton.pathStates) =
      (.ok (some ⟨1⟩), .ok (some ⟨2⟩), [⟨0⟩, ⟨3⟩]) := by
    subst hl hl₂
    cbv
  simp only [Prod.mk.injEq, target?_eq_ok_some_iff] at htwo hthree
  obtain ⟨hone, htwo, hwords, hwords'⟩ := htwo
  obtain ⟨hfirst, hsecond, hpath⟩ := hthree
  obtain ⟨hcounts, hlife⟩ := Prod.mk.inj hcounts
  have hreach₂ : l₂.Reachable := hl₂ ▸ .after (.new 0) _
  have hreach : l.Reachable := hl ▸ hreach₂.after _
  have hreach' : l'.Reachable := hl' ▸ hreach.after _
  have hdag := hreach₂.valid.sound.dag_root
  refine ⟨l₂, l, l', hl₂, hl, hl', hcounts, Set.ext fun w => ?_, ?_,
    (Reachable.minimal hreach').2 hlife⟩
  · simp only [Set.mem_ofPred_eq, ← mem_listing_iff (hdag.of_edge hone),
      ← mem_listing_iff (hdag.of_edge htwo), hwords, hwords']
  · have hreaches : l.arena.Reaches l.root ⟨1⟩ := Edge.reaches hfirst
    exact (Reachable.minimal hreach).1 _ _ hreaches (hreaches.trans (Edge.reaches hsecond))
      (by rw [hpath]; decide) (by rw [hpath]; decide) (by decide)

end WordGraph.Lexicon
