import WordGraph.Lexicon.Session
import WordGraph.Proofs.Lexicon.Building
import WordGraph.Proofs.Lexicon.Shape
import WordGraph.Proofs.Traversal.Words

/-!
# What cursors hand out

A cursor is plain data and names slots of a graph that may have changed since. The version of a
lexicon is what keeps it from being misled: every operation that changes the graph raises it, and one
that does not leaves the graph as it is. So a cursor that is let on stands where it would stand if
nothing had happened.

* `Lexicon.Told` — the version tells whether an operation has changed the graph
* `Lexicon.Valid.told` — it does so for every operation
* `Session.Follows` — a cursor stands where its record says
* `Session.Recorded.coherent` — every cursor does, at any time
* `Session.Recorded.handsOut` — which cursors are refused, and what the others hand out
-/

namespace WordGraph

open Arena Automaton

variable {σ : Type} [Symbol σ]

/-! ## Operations and versions -/

/-- A word modifies the automaton if it counts as new or some state of the path is settled for it. -/
theorem Automaton.Added.modified_eq {g g' : Automaton σ} {w : Word σ} {i : Insertion}
    (h : Added g w g' i) :
    i.modified = (i.added || w.commonPrefixLength g.lastWord < g.path.length) := by
  have hlen : g.path.length = g.lastWord.length := (List.length_map _).symm
  rw [Bool.eq_iff_iff, h.modified_iff, Bool.or_eq_true, h.added_iff, decide_eq_true_iff, hlen]
  by_cases hacc : g.arena.Accepts g.root w
  · by_cases hpre : w <+: g.lastWord
    · rw [commonPrefixLength_eq_length_iff.2 hpre, length_lt_iff_ne_of_isPrefix hpre]
      simp [hacc, hpre]
    · have hne : w ≠ g.lastWord := fun he => hpre (he ▸ List.prefix_refl w)
      simp [hpre, hne]
  · simp [hacc]

namespace Lexicon

variable {l l' : Lexicon σ} {w : Word σ} {isNew changes : Bool}

/-- The version tells whether the graph has changed. -/
structure Told (l : Lexicon σ) (changes : Bool) (l' : Lexicon σ) : Prop where
  valid : l'.Valid
  identity_eq : l'.identity = l.identity
  version_eq : l'.version = if changes then l.version + 1 else l.version
  automaton_eq : changes = false → l'.automaton = l.automaton

theorem Operation.step (h : l.Operation changes l') : Step l l' := by
  cases h with
  | add h => exact .add h
  | addUnchecked h => exact .addUnchecked h
  | close h => exact .close h
  | clear h => exact .clear h
  | numbering h => exact .numbering h

theorem Valid.told_of_insert (h : l.Valid) (hl : l.lifecycle ≠ .closed)
    (hr : (l.insert w).result = .ok (isNew, l')) :
    Told l (isNew || w.commonPrefixLength l.automaton.lastWord < l.automaton.path.length) l' := by
  have hvalid := (h.insert_ok hl hr).valid
  obtain ⟨g, i, ms, size, longest, n?, hadd, rfl, rfl⟩ := exists_taken_of_insert hr
  have hg := (h.growing hl).add_ok hadd
  rw [← hg.modified_eq]
  cases hm : i.modified with
  | true => exact ⟨hm ▸ hvalid, rfl, rfl, (nomatch ·)⟩
  | false => exact ⟨hm ▸ hvalid, rfl, rfl, fun _ => hg.eq_of_not_modified hm⟩

/-- **The version tells of every operation whether it has changed the graph.** -/
theorem Valid.told (h : l.Valid) (ho : l.Operation changes l') : Told l changes l' := by
  have hvalid := h.step ho.step
  cases ho with
  | add hr =>
    obtain ⟨hl, -, hr⟩ := insert_of_add hr
    exact h.told_of_insert hl hr
  | addUnchecked hr =>
    obtain ⟨hl, hr⟩ := insert_of_addUnchecked hr
    exact h.told_of_insert hl hr
  | close hr =>
    by_cases hl : l.lifecycle = .closed
    · rw [close_of_closed hl] at hr
      cases hr
      exact ⟨hvalid, rfl, by simp [hl], fun _ => rfl⟩
    · obtain ⟨g, ms, -, rfl⟩ := exists_close_of_close hl hr
      exact ⟨hvalid, rfl, by simp [hl, touch], by simp [hl]⟩
  | clear hr =>
    cases hr
    exact ⟨hvalid, rfl, rfl, fun hne => absurd hne (by decide)⟩
  | numbering hr =>
    obtain ⟨n, hrun, -⟩ := h.numbering_spec
    rw [hrun] at hr
    cases hr
    exact ⟨hvalid, rfl, rfl, fun _ => rfl⟩

/-- A loaded lexicon has the identity that it was given. -/
theorem identity_of_load [SymbolCode σ] {identity : Nat} {bs : Bytes}
    (h : (load identity bs).result = .ok l) : l.identity = identity := by
  obtain ⟨k, -, -, -, hl⟩ := exists_contents_of_load h
  obtain ⟨a, order, n, lengths, path, register, -, -, -, -, -, -, -, -, -, rfl⟩ :=
    ofContents_eq_ok_iff.1 hl
  rfl

end Lexicon

namespace Session

variable {S S' : Session σ} {rs : List (Record σ)} {k : Cursor σ} {r : Record σ}
  {l l' : Lexicon σ} {c d : Nat} {changes : Bool}

/-! ## One cursor -/

/-- A cursor stands where its record says: it belongs to a lexicon, it is behind the lexicon just if
that has changed since, and if not, it has handed out as many words as are on record. -/
structure Follows (l : Lexicon σ) (k : Cursor σ) (r : Record σ) : Prop where
  identity_eq : k.identity = l.identity
  version_le : k.version ≤ l.version
  changed_iff : r.changed ↔ k.version < l.version
  at_steps : r.changed = false → k.traversal.At l.arena l.root r.pattern r.steps

namespace Follows

/-- A new cursor has handed out nothing. -/
theorem cursor (h : l.Valid) (d : Nat) (p : Pattern σ) : Follows l (l.cursor p) ⟨d, p, 0, false⟩ where
  identity_eq := rfl
  version_le := Nat.le_refl _
  changed_iff := by simp [Lexicon.cursor]
  at_steps _ := .start h.sound.dag_root p

/-- A cursor is let on if the lexicon has not changed since it was made. -/
theorem isFor_iff (h : Follows l k r) : k.isFor l ↔ r.changed = false := by
  have hle := h.version_le
  rw [Cursor.isFor, h.identity_eq, ← Bool.not_eq_true, h.changed_iff]
  simp only [beq_self_eq_true, Bool.true_and, beq_iff_eq]
  omega

/-- A cursor that stays where it is while its lexicon is used is behind it if the graph has changed,
and else stands where it stood. -/
theorem told (h : Follows l k r) (ht : l.Told changes l') :
    Follows l' k { r with changed := r.changed || changes } where
  identity_eq := h.identity_eq.trans ht.identity_eq.symm
  version_le := by
    have := h.version_le
    rw [ht.version_eq]
    split <;> omega
  changed_iff := by
    have := h.version_le
    rw [Bool.or_eq_true, h.changed_iff, ht.version_eq]
    cases changes with
    | true =>
      simp only [or_true, if_true, true_iff]
      omega
    | false => simp
  at_steps hc := by
    obtain ⟨hr, hc⟩ := Bool.or_eq_false_iff.1 hc
    rw [Lexicon.arena, Lexicon.root, ht.automaton_eq hc]
    exact h.at_steps hr

/-- **A cursor that is let on hands out the next word.** -/
theorem advance (h : Follows l k r) (hr : r.changed = false) :
    ∃ k', k.advance l = .ok (((l.arena.listing l.root).filter r.pattern.accepts)[r.steps]?, k') ∧
      Follows l k' r.step := by
  have hat := h.at_steps hr
  unfold Cursor.advance
  rw [if_pos (h.isFor_iff.2 hr)]
  rcases hat.next with ⟨hn, hle⟩ | ⟨w, t, hn, hat', hw⟩
  · rw [hn, List.getElem?_eq_none hle]
    refine ⟨_, rfl, h.identity_eq, h.version_le, h.changed_iff, fun _ => ?_⟩
    show Traversal.At _ _ r.pattern (r.steps + 1) ⟨k.traversal.policy, []⟩
    rw [hat.policy_eq]
    exact .atEnd (Nat.le_succ_of_le hle)
  · rw [hn, hw]
    exact ⟨_, rfl, h.identity_eq, h.version_le, h.changed_iff, fun _ => hat'⟩

end Follows

/-- A cursor is only advanced where there are the cursor and the lexicon. -/
theorem exists_of_advance {answer : Except (Error σ) (Option (Word σ)) × Session σ}
    (h : S.advance c d = some answer) :
    (∃ k, S.cursors[c]? = some k) ∧ ∃ l, S.lexicons[d]? = some l := by
  unfold advance at h
  cases hk : S.cursors[c]? with
  | none => simp [hk] at h
  | some k =>
    cases hl : S.lexicons[d]? with
    | none => simp [hk, hl] at h
    | some l => exact ⟨⟨k, rfl⟩, l, rfl⟩

/-! ## All cursors -/

/-- The invariant of sessions: every cursor follows the lexicon for which it was made, and no two
lexicons share an identity. -/
structure Coherent (S : Session σ) (rs : List (Record σ)) : Prop where
  valid : ∀ (d : Nat) (l : Lexicon σ), S.lexicons[d]? = some l → l.Valid
  identity_lt : ∀ (d : Nat) (l : Lexicon σ), S.lexicons[d]? = some l →
    l.identity < S.nextIdentity
  identity_inj : ∀ (d e : Nat) (l m : Lexicon σ), S.lexicons[d]? = some l →
    S.lexicons[e]? = some m → l.identity = m.identity → d = e
  length_eq : S.cursors.length = rs.length
  follows : ∀ (c : Nat) (k : Cursor σ) (r : Record σ), S.cursors[c]? = some k → rs[c]? = some r →
    ∃ l, S.lexicons[r.source]? = some l ∧ Follows l k r

theorem getElem?_concat_cases {α : Type} {xs : List α} {x y : α} {i : Nat}
    (h : (xs ++ [x])[i]? = some y) : xs[i]? = some y ∨ i = xs.length ∧ y = x := by
  rcases Nat.lt_trichotomy i xs.length with hi | rfl | hi
  · rw [List.getElem?_append_left hi] at h
    exact .inl h
  · rw [List.getElem?_concat_length] at h
    exact .inr ⟨rfl, (Option.some.inj h).symm⟩
  · rw [List.getElem?_eq_none (by simp; omega)] at h
    cases h

theorem getElem?_append_of_some {α : Type} {xs : List α} {x : α} {i : Nat} (ys : List α)
    (h : xs[i]? = some x) : (xs ++ ys)[i]? = some x := by
  rw [List.getElem?_append_left (List.getElem?_eq_some_iff.1 h).1, h]

namespace Coherent

/-- A lexicon that is made gets an identity of its own. -/
theorem withLexicon (h : Coherent S rs) (hl : l.Valid) (hid : l.identity = S.nextIdentity) :
    Coherent (S.withLexicon l) rs where
  valid d m hm := by
    rcases getElem?_concat_cases hm with hm | ⟨-, rfl⟩
    · exact h.valid d m hm
    · exact hl
  identity_lt d m hm := by
    show _ < S.nextIdentity + 1
    rcases getElem?_concat_cases hm with hm | ⟨-, rfl⟩
    · exact Nat.lt_succ_of_lt (h.identity_lt d m hm)
    · omega
  identity_inj d e m n hm hn heq := by
    rcases getElem?_concat_cases hm with hm' | ⟨hd, rfl⟩ <;>
      rcases getElem?_concat_cases hn with hn' | ⟨he, rfl⟩
    · exact h.identity_inj d e m n hm' hn' heq
    · have := h.identity_lt d m hm'
      omega
    · have := h.identity_lt e n hn'
      omega
    · rw [hd, he]
  length_eq := h.length_eq
  follows c k r hk hr := by
    obtain ⟨m, hm, hf⟩ := h.follows c k r hk hr
    exact ⟨m, getElem?_append_of_some _ hm, hf⟩

theorem elsewhere (h : Coherent S rs) (n : Nat) :
    Coherent { S with nextIdentity := S.nextIdentity + n } rs :=
  { h with identity_lt := fun d l hl => Nat.lt_add_right n (h.identity_lt d l hl) }

/-- An operation on a lexicon is noted in the records of its cursors. -/
theorem operation (h : Coherent S rs) (hl : S.lexicons[d]? = some l) (ht : l.Told changes l') :
    Coherent { S with lexicons := S.lexicons.set d l' } (rs.map fun r => r.note d changes) := by
  have hlt : d < S.lexicons.length := (List.getElem?_eq_some_iff.1 hl).1
  -- a lexicon is the new one at its place or an old one at another
  have hcases : ∀ (e : Nat) (m : Lexicon σ), (S.lexicons.set d l')[e]? = some m →
      e = d ∧ m = l' ∨ e ≠ d ∧ S.lexicons[e]? = some m := by
    intro e m hm
    by_cases he : e = d
    · subst he
      rw [List.getElem?_set_self hlt] at hm
      exact .inl ⟨rfl, (Option.some.inj hm).symm⟩
    · rw [List.getElem?_set_ne (Ne.symm he)] at hm
      exact .inr ⟨he, hm⟩
  -- the identities are those of the lexicons before
  have hold : ∀ (e : Nat) (m : Lexicon σ), (S.lexicons.set d l')[e]? = some m →
      ∃ n : Lexicon σ, S.lexicons[e]? = some n ∧ m.identity = n.identity := by
    intro e m hm
    rcases hcases e m hm with ⟨rfl, rfl⟩ | ⟨-, hm⟩
    · exact ⟨l, hl, ht.identity_eq⟩
    · exact ⟨m, hm, rfl⟩
  refine ⟨fun e m hm => ?_, fun e m hm => ?_, fun e e' m m' hm hm' heq => ?_, ?_,
    fun c k r hk hr => ?_⟩
  · rcases hcases e m hm with ⟨-, rfl⟩ | ⟨-, hm⟩
    · exact ht.valid
    · exact h.valid e m hm
  · obtain ⟨n, hn, hid⟩ := hold e m hm
    exact hid ▸ h.identity_lt e n hn
  · obtain ⟨n, hn, hid⟩ := hold e m hm
    obtain ⟨n', hn', hid'⟩ := hold e' m' hm'
    exact h.identity_inj e e' n n' hn hn' (hid.symm.trans (heq.trans hid'))
  · rw [List.length_map]
    exact h.length_eq
  · rw [List.getElem?_map] at hr
    obtain ⟨r, hr', rfl⟩ := Option.map_eq_some_iff.1 hr
    obtain ⟨m, hm, hf⟩ := h.follows c k r hk hr'
    unfold Record.note
    split
    · next hd =>
      rw [hd, hl] at hm
      cases hm
      exact ⟨l', by rw [hd, List.getElem?_set_self hlt], hf.told ht⟩
    · next hd => exact ⟨m, by rw [List.getElem?_set_ne (Ne.symm hd)]; exact hm, hf⟩

/-- A cursor that is made or copied has its record. -/
theorem withCursor (h : Coherent S rs) (hl : S.lexicons[r.source]? = some l)
    (hf : Follows l k r) : Coherent { S with cursors := S.cursors ++ [k] } (rs ++ [r]) := by
  refine { h with length_eq := by simp [h.length_eq], follows := fun c k' r' hk hr => ?_ }
  rcases getElem?_concat_cases hk with hk' | ⟨hc, rfl⟩ <;>
    rcases getElem?_concat_cases hr with hr' | ⟨hc', rfl⟩
  · exact h.follows c k' r' hk' hr'
  · have := (List.getElem?_eq_some_iff.1 hk').1
    have := h.length_eq
    omega
  · have := (List.getElem?_eq_some_iff.1 hr').1
    have := h.length_eq
    omega
  · exact ⟨l, hl, hf⟩

/-- Every record is that of a cursor. -/
theorem exists_cursor (h : Coherent S rs) (hr : rs[c]? = some r) : ∃ k, S.cursors[c]? = some k := by
  have hlt : c < S.cursors.length := h.length_eq ▸ (List.getElem?_eq_some_iff.1 hr).1
  exact ⟨_, List.getElem?_eq_getElem hlt⟩

/-- **A cursor is refused if its lexicon is another one or has changed, and stays where it is.** -/
theorem advance_stale (h : Coherent S rs) (hr : rs[c]? = some r) (hl : S.lexicons[d]? = some l)
    (hstale : r.source ≠ d ∨ r.changed) : S.advance c d = some (.error .staleCursor, S) := by
  obtain ⟨k, hk⟩ := h.exists_cursor hr
  obtain ⟨m, hm, hf⟩ := h.follows c k r hk hr
  have hnot : ¬k.isFor l := by
    intro hfor
    have hid : l.identity = k.identity := by
      simp only [Cursor.isFor, Bool.and_eq_true, beq_iff_eq] at hfor
      exact hfor.1
    obtain rfl : r.source = d := h.identity_inj _ _ m l hm hl (hf.identity_eq.symm.trans hid.symm)
    rw [hm] at hl
    cases hl
    rw [hf.isFor_iff] at hfor
    simp [hfor] at hstale
  unfold advance Cursor.advance
  simp [hk, hl, hnot]

/-- **Any other cursor hands out the next word**, and goes on from there. -/
theorem advance_ok (h : Coherent S rs) (hr : rs[c]? = some r) (hl : S.lexicons[r.source]? = some l)
    (hfresh : r.changed = false) :
    ∃ k, S.advance c r.source =
        some (.ok ((l.arena.listing l.root).filter r.pattern.accepts)[r.steps]?,
          { S with cursors := S.cursors.set c k }) ∧
      Follows l k r.step := by
  obtain ⟨k, hk⟩ := h.exists_cursor hr
  obtain ⟨m, hm, hf⟩ := h.follows c k r hk hr
  rw [hl] at hm
  cases hm
  obtain ⟨k', hadv, hf'⟩ := hf.advance hfresh
  refine ⟨k', ?_, hf'⟩
  unfold advance
  simp [hk, hl, hadv]

/-- Whatever comes of advancing a cursor, it is no fault. -/
theorem advance_noFault (h : Coherent S rs) (hk : S.cursors[c]? = some k)
    (hl : S.lexicons[d]? = some l) : NoFault (k.advance l) := by
  intro f hf
  have hadv : S.advance c d = some (.error (.fault f), S) := by
    unfold advance
    simp [hk, hl, hf]
  have hlt : c < rs.length := h.length_eq ▸ (List.getElem?_eq_some_iff.1 hk).1
  obtain ⟨r, hr⟩ : ∃ r, rs[c]? = some r := ⟨_, List.getElem?_eq_getElem hlt⟩
  by_cases hstale : r.source ≠ d ∨ r.changed
  · rw [h.advance_stale hr hl hstale] at hadv
    cases hadv
  · obtain ⟨rfl, hfresh⟩ : r.source = d ∧ r.changed = false := by simpa using hstale
    obtain ⟨k', hrun, -⟩ := h.advance_ok hr hl hfresh
    rw [hrun] at hadv
    cases hadv

/-- A cursor that goes on has it on record. -/
theorem advance (h : Coherent S rs) {w : Option (Word σ)}
    (hadv : S.advance c d = some (.ok w, S')) : Coherent S' (rs.modify c Record.step) := by
  obtain ⟨⟨k, hk⟩, l, hl⟩ := exists_of_advance hadv
  have hlt : c < S.cursors.length := (List.getElem?_eq_some_iff.1 hk).1
  obtain ⟨r, hr⟩ : ∃ r, rs[c]? = some r := ⟨_, List.getElem?_eq_getElem (h.length_eq ▸ hlt)⟩
  by_cases hstale : r.source ≠ d ∨ r.changed
  · rw [h.advance_stale hr hl hstale] at hadv
    cases hadv
  obtain ⟨rfl, hfresh⟩ : r.source = d ∧ r.changed = false := by simpa using hstale
  obtain ⟨k', hrun, hf⟩ := h.advance_ok hr hl hfresh
  rw [hrun] at hadv
  cases hadv
  refine ⟨h.valid, h.identity_lt, h.identity_inj, ?_, fun e m r' hm hr' => ?_⟩
  · rw [List.length_set, List.length_modify, h.length_eq]
  · by_cases he : c = e
    · subst he
      rw [List.getElem?_set_self hlt] at hm
      rw [List.getElem?_modify_eq, hr] at hr'
      cases hm
      cases hr'
      exact ⟨l, hl, hf⟩
    · rw [List.getElem?_set_ne he] at hm
      rw [List.getElem?_modify_ne _ _ he] at hr'
      exact h.follows e m r' hm hr'

end Coherent

/-- **Every cursor follows its lexicon at any time.** -/
theorem Recorded.coherent (h : Recorded S rs) : Coherent S rs := by
  induction h with
  | start identity => exact ⟨by simp, by simp, by simp, rfl, by simp⟩
  | new _ ih => exact ih.withLexicon (.new _) rfl
  | load _ h' ih => exact ih.withLexicon (Lexicon.valid_of_load h') (Lexicon.identity_of_load h')
  | clone _ hl ih => exact ih.withLexicon ((ih.valid _ _ hl).step (.clone _ _)) rfl
  | elsewhere _ n ih => exact ih.elsewhere n
  | operation _ hl h' ih => exact ih.operation hl ((ih.valid _ _ hl).told h')
  | cursor _ hl p ih => exact ih.withCursor hl (.cursor (ih.valid _ _ hl) _ p)
  | copy _ hk hr ih =>
    obtain ⟨l, hl, hf⟩ := ih.follows _ _ _ hk hr
    exact ih.withCursor hl hf
  | advance _ h' ih => exact ih.advance h'

/-- **A cursor is refused just if the lexicon is not the one for which it was made or has changed
since, and stays where it is. Any other cursor hands out the words that fit its pattern now**, each at
its turn, and nothing behind the last one. -/
theorem Recorded.handsOut (h : Recorded S rs) (hr : rs[c]? = some r)
    (hl : S.lexicons[d]? = some l) :
    (S.advance c d = some (.error .staleCursor, S) ↔ r.source ≠ d ∨ r.changed) ∧
      (¬(r.source ≠ d ∨ r.changed) → ∃ ws S', (l.find r.pattern).words l.arena = .ok ws ∧
        S.advance c d = some (.ok ws[r.steps]?, S')) := by
  have hc := h.coherent
  have hfresh : ¬(r.source ≠ d ∨ r.changed) → ∃ ws S', (l.find r.pattern).words l.arena = .ok ws ∧
      S.advance c d = some (.ok ws[r.steps]?, S') := by
    intro hstale
    obtain ⟨rfl, hchanged⟩ : r.source = d ∧ r.changed = false := by simpa using hstale
    obtain ⟨k, hrun, -⟩ := hc.advance_ok hr hl hchanged
    exact ⟨_, _, Lexicon.words_find (hc.valid _ _ hl).sound.dag_root r.pattern, hrun⟩
  refine ⟨⟨fun hrun => ?_, hc.advance_stale hr hl⟩, hfresh⟩
  by_contra hstale
  obtain ⟨ws, S', -, hrun'⟩ := hfresh hstale
  rw [hrun] at hrun'
  cases hrun'

/-- A cursor for the words of a lexicon hands out the first of them, and is refused once the lexicon
has been cleared. -/
theorem handsOut_of_cleared :
    ∃ (l l' : Lexicon UInt8) (S S' : Session UInt8), ((Lexicon.new 0).add [7]).result = .ok (true, l) ∧
      l.clear.result = .ok l' ∧ S = ⟨[l], [l.cursor .any], 1⟩ ∧ S' = ⟨[l'], [l.cursor .any], 1⟩ ∧
      (∃ ws T, (l.find .any).words l.arena = .ok ws ∧ S.advance 0 0 = some (.ok ws[0]?, T)) ∧
      S'.advance 0 0 = some (.error .staleCursor, S') := by
  obtain ⟨l, hadd⟩ : ∃ l : Lexicon UInt8, ((Lexicon.new 0).add [7]).result = .ok (true, l) :=
    ⟨_, rfl⟩
  obtain ⟨l', hclear⟩ : ∃ l', l.clear.result = .ok l' := ⟨_, rfl⟩
  have hnew : Recorded ⟨[(.new 0 : Lexicon UInt8)], [], 1⟩ [] := .new (.start 0)
  have hadded : Recorded ⟨[l], [], 1⟩ [] :=
    .operation (d := 0) hnew rfl (.add hadd)
  have hmade : Recorded ⟨[l], [l.cursor .any], 1⟩ [⟨0, .any, 0, false⟩] :=
    .cursor (d := 0) hadded rfl .any
  have hcleared : Recorded ⟨[l'], [l.cursor .any], 1⟩ [⟨0, .any, 0, true⟩] :=
    .operation (d := 0) hmade rfl (.clear hclear)
  refine ⟨l, l', _, _, hadd, hclear, rfl, rfl, ?_, ?_⟩
  · exact (Recorded.handsOut (c := 0) (d := 0) hmade rfl rfl).2 (by decide)
  · exact (Recorded.handsOut (c := 0) (d := 0) hcleared rfl rfl).1.2 (by decide)

end Session

end WordGraph
