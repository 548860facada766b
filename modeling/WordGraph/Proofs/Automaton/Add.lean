import WordGraph.Proofs.Automaton.Grow

/-!
# Adding a word and closing

What adding a word makes of the accepted words hangs on the words, the last word and the new word
alone. The new word keeps what it shares with the last word; if it goes on from there, it takes the
edge for its next symbol, and all other words along that edge are lost.

* `Displaces` — the words along the edge that a new word takes
* `Added` — what adding a word does
* `Growing.addWithin_ok`, `Growing.addWithin_error` — adding does that, or there is no slot left
* `Growing.close_spec` — closing runs through and keeps every word
-/

namespace WordGraph.Automaton

open Arena

variable {σ : Type} [Symbol σ] {g g' : Automaton σ} {i : Insertion} {ms : List (Merge σ)}
  {c d : σ} {s t : StateId} {w v last : Word σ}
  {limit : Option Nat}

/-- A word goes along the edge that a new word `w` takes behind the part that it shares with the
last word. -/
def Displaces (last w v : Word σ) : Prop :=
  w.commonPrefixLength last < w.length ∧ w.take (w.commonPrefixLength last + 1) <+: v

/-- What adding a word makes of an automaton, and what it answers. -/
structure Added (g : Automaton σ) (w : Word σ) (g' : Automaton σ) (i : Insertion) : Prop where
  growing : g'.Growing
  root_eq : g'.root = g.root
  lastWord_eq : g'.lastWord = w
  end_final : ∃ x, g'.arena.get? (endOf g'.root g'.path) = some x ∧ x.isFinal
  live_le : g'.arena.live ≤ g.arena.live + w.length
  accepts_iff : ∀ v, g'.arena.Accepts g.root v ↔
    v = w ∨ g.arena.Accepts g.root v ∧ ¬Displaces g.lastWord w v
  added_iff : i.added ↔ ¬(w <+: g.lastWord ∧ g.arena.Accepts g.root w)
  overwrote_iff : i.overwrote ↔ ∃ v, g.arena.Accepts g.root v ∧ Displaces g.lastWord w v
  eq_of_not_modified : i.modified = false → g' = g
  modified_iff : i.modified ↔ ¬(w = g.lastWord ∧ g.arena.Accepts g.root w)
  /-- If no edge was taken, no state got out of reach. -/
  trim : i.overwrote = false → g.Trim → g'.Trim

/-! ## The part that is shared -/

theorem take_commonPrefixLength_isPrefix (w v : Word σ) : w.take (w.commonPrefixLength v) <+: v := by
  rw [Word.take_commonPrefixLength]
  exact List.take_prefix ..

/-- What one of two words has in front and both share, the other has in front. -/
theorem isPrefix_of_length_le (h : v <+: last) (hle : v.length ≤ w.commonPrefixLength last) :
    v <+: w := by
  have hv : v <+: last.take (w.commonPrefixLength last) := List.prefix_take_iff.2 ⟨h, hle⟩
  rw [← Word.take_commonPrefixLength] at hv
  exact hv.trans (List.take_prefix ..)

/-- A word shares a part that it has in front with another word just if that has it in front. -/
theorem length_le_commonPrefixLength_iff (h : v <+: w) :
    v.length ≤ w.commonPrefixLength last ↔ v <+: last := by
  constructor
  · intro hle
    exact (List.prefix_take_iff.2 ⟨h, hle⟩).trans (take_commonPrefixLength_isPrefix w last)
  · rintro ⟨q, rfl⟩
    obtain ⟨u, rfl⟩ := h
    induction v with
    | nil => exact Nat.zero_le _
    | cons c v ih =>
      simp only [List.cons_append, Word.commonPrefixLength, List.length_cons, if_true]
      exact Nat.succ_le_succ ih

theorem commonPrefixLength_eq_length_iff :
    w.commonPrefixLength last = w.length ↔ w <+: last := by
  rw [← length_le_commonPrefixLength_iff (List.prefix_refl w)]
  exact ⟨Nat.le_of_eq ∘ Eq.symm, Nat.le_antisymm (Word.commonPrefixLength_le_left ..)⟩

theorem not_displaces_of_isPrefix (h : w <+: last) : ¬Displaces last w v := by
  rintro ⟨hlt, -⟩
  rw [commonPrefixLength_eq_length_iff.2 h] at hlt
  exact Nat.lt_irrefl _ hlt

theorem displaces_iff {u : Word σ} (h : w.drop (w.commonPrefixLength last) = c :: u) :
    Displaces last w v ↔ w.take (w.commonPrefixLength last) ++ [c] <+: v := by
  have hlt : w.commonPrefixLength last < w.length := by
    have := congrArg List.length h
    simp only [List.length_drop, List.length_cons] at this
    omega
  have hget : w[w.commonPrefixLength last] = c := by
    have := List.drop_eq_getElem_cons hlt
    rw [h] at this
    exact (List.cons.inj this).1.symm
  rw [Displaces, and_iff_right hlt, List.take_succ_eq_append_getElem hlt, hget]

theorem displaces_self (h : w.commonPrefixLength last < w.length) : Displaces last w w :=
  ⟨h, List.take_prefix _ _⟩

/-! ## Adding -/

/-- Along an edge from the end of the path some word is accepted. -/
theorem Sound.edge_end_iff (hg : g.Sound) :
    (∃ t, g.arena.Edge (endOf g.root g.path) c t) ↔
      ∃ v, g.arena.Accepts g.root v ∧ g.lastWord ++ [c] <+: v := by
  constructor
  · rintro ⟨t, he⟩
    obtain ⟨v, hv⟩ := hg.accepts (hg.edge_live he) (hg.off_path_of_end he)
    refine ⟨g.lastWord ++ c :: v, ?_, v, by simp⟩
    exact (accepts_append_iff hg.path_lastWord).2 (accepts_cons_iff.2 ⟨t, he, hv⟩)
  · rintro ⟨_, hv, u, rfl⟩
    rw [List.append_assoc, accepts_append_iff hg.path_lastWord] at hv
    obtain ⟨t, he, -⟩ := accepts_cons_iff.1 hv
    exact ⟨t, he⟩

/-- Once the rest of the path is settled, what it shares with a word is what is left of it, and the
words are the same. -/
theorem Growing.settle_shared (hg : g.Growing) (w : Word σ) :
    ∃ g₁ ms, g.settle (w.commonPrefixLength g.lastWord) = .ok (g₁, ms) ∧ g₁.Growing ∧
      Settled g g₁ ∧ g₁.lastWord = w.take (w.commonPrefixLength g.lastWord) ∧
      ∀ v, g₁.arena.Accepts g₁.root v ↔ g.arena.Accepts g.root v := by
  obtain ⟨g₁, ms, hrun, hgrow, hsettled, hpath⟩ := hg.settle_spec (w.commonPrefixLength g.lastWord)
  refine ⟨g₁, ms, hrun, hgrow, hsettled, ?_, fun v => ?_⟩
  · rw [lastWord, hpath, List.map_take, Word.take_commonPrefixLength]
    rfl
  · rw [hsettled.accepts_iff hgrow.root_live, hsettled.root_eq]

omit [Symbol σ] in
theorem length_lt_iff_ne_of_isPrefix (h : w <+: last) : w.length < last.length ↔ w ≠ last := by
  constructor
  · rintro hlt rfl
    exact Nat.lt_irrefl _ hlt
  · exact fun hne => Nat.lt_of_le_of_ne h.length_le fun he => hne (h.eq_of_length he)

/-- A word on the path of the last one is taken: the rest of the path is settled, and the word is
made to end where it does. -/
theorem Growing.addWithin_of_isPrefix (hg : g.Growing) (hw : w <+: g.lastWord)
    (h : g.addWithin limit w = .ok (g', i, ms)) : Added g w g' i := by
  have hk := commonPrefixLength_eq_length_iff.2 hw
  obtain ⟨g₁, ms₁, hrun, hgrow, hsettled, hlast, hlang⟩ := hg.settle_shared w
  rw [hk] at hrun hlast
  rw [List.take_length] at hlast
  have hlive := hsettled.live_le
  obtain ⟨x, hx⟩ := isLive_iff.1 (hgrow.isLive_of_mem_pathStates (endOf_mem_pathStates g₁))
  have hend : g.arena.Accepts g.root w ↔ x.isFinal := by
    rw [← hlang, ← accepts_nil_iff_of_get? hx]
    have := accepts_append_iff (v := []) hgrow.path_lastWord
    rwa [List.append_nil, hlast] at this
  have hkeep : ∀ v, g₁.arena.Accepts g₁.root v ↔
      g.arena.Accepts g.root v ∧ ¬Displaces g.lastWord w v := by
    intro v
    rw [hlang, and_iff_left (not_displaces_of_isPrefix hw)]
  have hover : ¬∃ v, g.arena.Accepts g.root v ∧ Displaces g.lastWord w v := by
    rintro ⟨v, -, hd⟩
    exact not_displaces_of_isPrefix hw hd
  have hlength := length_lt_iff_ne_of_isPrefix hw
  unfold addWithin at h
  simp only [hk, hrun, List.drop_length, bind, Except.bind, state_eq_ok_iff.2 hx] at h
  cases hf : x.isFinal with
  | true =>
    rw [hf] at hend h
    obtain ⟨rfl, rfl, -⟩ : g₁ = g' ∧ _ = i ∧ _ = ms := by simpa [pure, Except.pure] using h
    refine ⟨hgrow, hsettled.root_eq, hlast, ⟨x, hx, hf⟩, by omega, fun v => ?_, ?_, ?_, ?_, ?_,
      fun _ => hsettled.trim hgrow.root_live⟩
    · rw [← hkeep, ← hsettled.root_eq, or_iff_right_of_imp]
      rintro rfl
      exact (hlang v).2 (hend.2 rfl)
    · simp [hw, hend]
    · simpa using hover
    · intro hmod
      have hle : g.path.length ≤ w.length := by
        have : ¬w.length < g.lastWord.length := by simpa using hmod
        rw [lastWord, List.length_map] at this
        omega
      rw [settle_of_length_le hle] at hrun
      cases hrun
      rfl
    · simp [hlength, hend]
  | false =>
    rw [hf] at hend h
    obtain ⟨a, ha⟩ := exists_setFinal (isLive_of_get? hx) true
    obtain ⟨hgrow', hfinal, hlive', hlang'⟩ := hgrow.toSound.setFinal_end hgrow.isOpen ha
    simp only [ha, Bool.false_eq_true, if_false, pure, Except.pure, Except.ok.injEq,
      Prod.mk.injEq] at h
    obtain ⟨rfl, rfl, -⟩ := h
    refine ⟨hgrow', hsettled.root_eq, hlast, hfinal, ?_, fun v => ?_, ?_, ?_, ?_, ?_,
      fun _ ht => (hsettled.trim hgrow.root_live ht).setFinal ha⟩
    · show a.live ≤ _
      omega
    · rw [← hkeep, ← hsettled.root_eq, hlang', hlast, or_comm]
    · simp [hend]
    · simpa using hover
    · intro hmod
      cases hmod
    · simp [hend]

/-- A word that leaves the path of the last one is taken: the rest of the path is settled, and a
chain of new states takes its place. -/
theorem Growing.addWithin_of_not_isPrefix (hg : g.Growing) (hw : ¬w <+: g.lastWord)
    (h : g.addWithin limit w = .ok (g', i, ms)) : Added g w g' i := by
  obtain ⟨g₁, ms₁, hrun, hgrow, hsettled, hlast, hlang⟩ := hg.settle_shared w
  have hlive := hsettled.live_le
  have hlt : w.commonPrefixLength g.lastWord < w.length :=
    Nat.lt_of_le_of_ne (Word.commonPrefixLength_le_left _ _)
      fun he => hw (commonPrefixLength_eq_length_iff.1 he)
  unfold addWithin at h
  cases hdrop : w.drop (w.commonPrefixLength g.lastWord) with
  | nil =>
    have := List.drop_eq_nil_iff.1 hdrop
    omega
  | cons c u =>
    simp only [hrun, hdrop, bind, Except.bind] at h
    cases hh : hangWithin limit g₁.arena (endOf g₁.root g₁.path) [] false (c :: u) with
    | error f =>
      rw [hh] at h
      cases h
    | ok made =>
      obtain ⟨a, e, chain, b⟩ := made
      obtain ⟨new, hchain, he, hhung, hb⟩ := hgrow.toSound.hangWithin_ok hgrow.isOpen hh
      obtain rfl : chain = new := hchain
      subst he
      simp only [hh] at h
      cases ha : a.setFinal (endOf g₁.root (g₁.path ++ chain)) true with
      | error f =>
        rw [ha] at h
        cases h
      | ok a' =>
        simp only [ha, pure, Except.pure, Except.ok.injEq, Prod.mk.injEq] at h
        obtain ⟨rfl, rfl, -⟩ := h
        obtain ⟨hgrow', hfinal, hlive', hlang'⟩ := hhung.sound.setFinal_end hhung.isOpen ha
        have hsplit : w.take (w.commonPrefixLength g.lastWord) ++ c :: u = w := by
          rw [← hdrop, List.take_append_drop]
        have hlast' := hhung.lastWord_eq
        rw [hlast, hsplit] at hlast'
        have hdisp : ∀ v, Displaces g.lastWord w v ↔ g₁.lastWord ++ [c] <+: v := by
          intro v
          rw [displaces_iff hdrop, hlast]
        have hlen : u.length < w.length := by
          have := congrArg List.length hsplit
          simp only [List.length_append, List.length_cons] at this
          omega
        refine ⟨hgrow', hsettled.root_eq, hlast', hfinal, ?_, fun v => ?_, ?_, ?_, ?_, ?_, ?_⟩
        · have := hhung.live_eq
          simp only [List.length_cons] at this hlive' ⊢
          omega
        · have hv := hlang' v
          rw [hlast', hhung.accepts_iff] at hv
          rw [← hsettled.root_eq, hv, hlang, hdisp]
          simp [hsettled.root_eq, or_comm]
        · simp [hw]
        · rw [hb, or_iff_right Bool.false_ne_true]
          simp only [List.head?_cons, Option.mem_def, Option.some.injEq, exists_eq_left', hdisp,
            hgrow.toSound.edge_end_iff, hlang]
        · intro hmod
          cases hmod
        · simp only [true_iff, not_and]
          rintro rfl
          exact absurd (List.prefix_refl _) hw
        · intro ho ht
          refine (hhung.trim (fun d hd t he => ?_) (hsettled.trim hgrow.root_live ht)).setFinal ha
          exact absurd (hb.2 (.inr ⟨d, hd, t, he⟩)) (by simpa using ho)

/-- **What adding a word does.** -/
theorem Growing.addWithin_ok (hg : g.Growing) (h : g.addWithin limit w = .ok (g', i, ms)) :
    Added g w g' i := by
  by_cases hw : w <+: g.lastWord
  · exact hg.addWithin_of_isPrefix hw h
  · exact hg.addWithin_of_not_isPrefix hw h

/-- **Only a lack of slots keeps a word from being added.** -/
theorem Growing.addWithin_error (hg : g.Growing) {f : Fault}
    (h : g.addWithin limit w = .error f) :
    f = .arenaFull ∧ ¬w <+: g.lastWord ∧ ∃ n ∈ limit, n < g.arena.live + w.length := by
  obtain ⟨g₁, ms₁, hrun, hgrow, hsettled, -⟩ := hg.settle_spec (w.commonPrefixLength g.lastWord)
  have hlive := hsettled.live_le
  have hend := hgrow.isLive_of_mem_pathStates (endOf_mem_pathStates g₁)
  unfold addWithin at h
  simp only [hrun, bind, Except.bind] at h
  cases hdrop : w.drop (w.commonPrefixLength g.lastWord) with
  | nil =>
    obtain ⟨x, hx⟩ := isLive_iff.1 hend
    obtain ⟨a, ha⟩ := exists_setFinal hend true
    simp only [hdrop, state_eq_ok_iff.2 hx, ha] at h
    split at h <;> cases h
  | cons c u =>
    simp only [hdrop] at h
    have hlen : (c :: u).length ≤ w.length := by
      rw [← hdrop, List.length_drop]
      omega
    have hpre : ¬w <+: g.lastWord := by
      intro hpre
      rw [commonPrefixLength_eq_length_iff.2 hpre, List.drop_length] at hdrop
      cases hdrop
    cases hh : hangWithin limit g₁.arena (endOf g₁.root g₁.path) [] false (c :: u) with
    | error f' =>
      rw [hh] at h
      cases h
      obtain ⟨hf, n, hn, hlt⟩ := hgrow.toSound.hangWithin_error hgrow.isOpen hh
      exact ⟨hf, hpre, n, hn, by omega⟩
    | ok made =>
      obtain ⟨a, e, chain, b⟩ := made
      obtain ⟨new, hchain, rfl, hhung, -⟩ := hgrow.toSound.hangWithin_ok hgrow.isOpen hh
      obtain ⟨a', ha⟩ :=
        exists_setFinal (hhung.sound.isLive_of_mem_pathStates (endOf_mem_pathStates _)) true
      simp only [hh] at h
      rw [ha] at h
      cases h

/-- Within the limits of the arena, a word is added in the same way. -/
theorem Growing.add_ok (hg : g.Growing) (h : g.add w = .ok (g', i, ms)) : Added g w g' i :=
  hg.addWithin_ok h

/-! ## Closing -/

/-- A state whose kind can be told can be made canonical, which registers it if its kind is new. -/
theorem exists_canonicalize_of_kind {r : Register σ} {a : Arena σ} {p : Fingerprint σ}
    (h : r.kind a s = .ok p) : ∃ t r', r.canonicalize a s = .ok (t, r') ∧
      ∀ q, r'.get? q = if q = p then some ((r.get? p).getD s) else r.get? q := by
  unfold Register.canonicalize
  rw [h]
  cases hp : r.get? p with
  | some t =>
    refine ⟨t, r, by simp [bind, Except.bind, hp, pure, Except.pure], fun q => ?_⟩
    split
    · next hq => rw [hq, hp]; rfl
    · rfl
  | none =>
    refine ⟨s, ⟨r.classes.insert p s⟩, by simp [bind, Except.bind, hp, pure, Except.pure],
      fun q => ?_⟩
    show (r.classes.insert p s)[q]? = _
    rw [Std.HashMap.getElem?_insert]
    by_cases hq : q = p
    · simp [hq]
    · rw [if_neg hq, if_neg fun he => hq (eq_of_beq he).symm]
      rfl

/-- What closing makes of an automaton. -/
structure Closed (g g' : Automaton σ) : Prop where
  sound : g'.Sound
  path_eq : g'.path = []
  root_eq : g'.root = g.root
  live_le : g'.arena.live ≤ g.arena.live
  accepts_iff : ∀ v, g'.arena.Accepts g.root v ↔ g.arena.Accepts g.root v
  trim : g.Trim → g'.Trim

/-- **Closing runs through** and keeps every word. -/
theorem Growing.close_spec (hg : g.Growing) : ∃ g' ms, g.close = .ok (g', ms) ∧ Closed g g' := by
  obtain ⟨g₁, ms, hrun, hgrow, hsettled, hpath⟩ := hg.settle_spec 0
  rw [List.take_zero] at hpath
  have hstates : g₁.pathStates = [g₁.root] := by rw [pathStates, hpath]; rfl
  obtain ⟨x, hx⟩ := isLive_iff.1 hgrow.root_live
  -- the children of the start state are off the path, so they are registered
  have hkind : g₁.register.kind g₁.arena g₁.root = .ok x.fingerprint := by
    refine Register.kind_eq_ok_iff.2 ⟨x, hx, rfl, fun t ht => ?_⟩
    obtain ⟨⟨c, u⟩, he, rfl⟩ := List.mem_map.1 ht
    have he : g₁.arena.Edge g₁.root c u := (edge_iff_mem hx).2 he
    obtain ⟨y, hy⟩ := isLive_iff.1 (hgrow.edge_live he)
    refine ⟨y, hy, hgrow.registered hy fun hu => ?_⟩
    obtain rfl : u = g₁.root := by simpa [hstates] using hu
    exact hgrow.not_edge_root he
  obtain ⟨t, r, hcan, hget⟩ := exists_canonicalize_of_kind hkind
  refine ⟨{ g₁ with register := r }, ms, ?_,
    ⟨?_, hpath, hsettled.root_eq, hsettled.live_le, ?_, hsettled.trim hgrow.root_live⟩⟩
  · unfold close
    simp [hrun, hcan, bind, Except.bind, pure, Except.pure]
  · refine { hgrow.toSound with of_register := ?_, registered := ?_ }
    · intro p u hp
      rw [show ({ g₁ with register := r } : Automaton σ).register.get? p = r.get? p from rfl,
        hget] at hp
      split at hp
      · next heq =>
        cases hr : g₁.register.get? x.fingerprint with
        | some v =>
          rw [hr] at hp
          cases hp
          rw [heq]
          exact hgrow.of_register hr
        | none =>
          rw [hr] at hp
          cases hp
          exact ⟨x, hx, heq.symm⟩
      · exact hgrow.of_register hp
    · intro u y hy hu
      show r.get? y.fingerprint = some u
      have hreg := hgrow.registered hy hu
      rw [hget]
      split
      · next heq =>
        rw [← heq, hreg]
        rfl
      · exact hreg
  · exact fun v => hsettled.accepts_iff (hsettled.root_eq ▸ hgrow.root_live)

end WordGraph.Automaton
