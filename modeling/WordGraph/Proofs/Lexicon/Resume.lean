import Mathlib
import WordGraph.Proofs.Dump.RoundTrip
import WordGraph.Proofs.Lexicon.Shape

/-!
# Going on after a dump

A lexicon that is loaded from a dump is not the lexicon that was dumped: its states lie in other slots,
what was out of reach is gone, and its register is made anew. Still nobody can tell the two apart,
however long they go on side by side, since they stay alike with every change.

* `Abreast` — two answers that say the same and leave lexicons that are alike
* `Alike.run` — one change keeps lexicons alike
* `Alike.after` — so does any number of them
* `Reachable.resume` — a dump can be loaded, and what is loaded goes on as the dumped lexicon does
-/

namespace WordGraph.Lexicon

open Arena Automaton Dump

variable {σ : Type} [Symbol σ] {l l' k k' : Lexicon σ} {w : Word σ} {isNew : Bool}

/-- The answer of a lexicon that has no slot left. -/
def noSlot : Except (Error σ) (Option Bool) := .error (.fault .arenaFull)

/-! ## One change -/

/-- Two answers say the same and leave lexicons that are alike, unless one is that no slot is left. -/
inductive Abreast : Except (Error σ) (Option Bool × Lexicon σ) →
    Except (Error σ) (Option Bool × Lexicon σ) → Prop
  | ok (b : Option Bool) {l l' : Lexicon σ} (h : Alike l l') : Abreast (.ok (b, l)) (.ok (b, l'))
  | error (e : Error σ) : Abreast (.error e) (.error e)
  | noSlot_left (r : Except (Error σ) (Option Bool × Lexicon σ)) :
      Abreast (.error (.fault .arenaFull)) r
  | noSlot_right (r : Except (Error σ) (Option Bool × Lexicon σ)) :
      Abreast r (.error (.fault .arenaFull))

/-- Remembering its numbering makes no difference to a lexicon. -/
theorem Valid.alike_remember (h : l.Valid) {n : Numbering}
    (hn : Numbering.compute l.arena l.root = .ok (some n)) :
    Alike l { l with numbering? := some n } :=
  ⟨h, h.remember hn, rfl, rfl, fun _ => Iff.rfl⟩

/-- A word is not added if it would be one too many. -/
theorem Inserted.not_full (h : l.Valid) (hins : Inserted l w isNew l') (hnew : ¬l.Holds w)
    (hkeep : ∀ v, l.Holds v → ¬Displaces l.automaton.lastWord w v) : l.size + 1 ≠ countLimit := by
  intro hfull
  have hcount := length_listing_of_new h.sound.dag_root hins.valid.sound.dag_root hnew fun v => by
    rw [← Holds, hins.holds_iff, and_iff_left_of_imp (hkeep v)]
    rfl
  rw [← hins.valid.size_eq, ← h.size_eq, hfull] at hcount
  exact Nat.ne_of_lt hins.valid.size_lt hcount

namespace Alike

/-- The word that one lexicon takes is not one too many for the other. -/
theorem not_full (h : Alike l l') (hins : Inserted l w isNew k) (hnew : ¬l'.Holds w)
    (hkeep : ∀ v, l'.Holds v → ¬Displaces l'.automaton.lastWord w v) :
    l'.size + 1 ≠ countLimit := by
  rw [← h.size_eq]
  refine hins.not_full h.valid (mt (h.holds_iff w).1 hnew) fun v hv => ?_
  rw [h.lastWord_eq]
  exact hkeep v ((h.holds_iff v).1 hv)

/-- The same word makes lexicons that are alike from lexicons that are alike. -/
theorem inserted {isNew' : Bool} (h : Alike l l') (hins : Inserted l w isNew k)
    (hins' : Inserted l' w isNew' k') : isNew = isNew' ∧ Alike k k' := by
  constructor
  · rw [Bool.eq_iff_iff, hins.isNew_iff, hins'.isNew_iff, h.lastWord_eq, h.holds_iff]
  · refine ⟨hins.valid, hins'.valid, ?_, ?_, fun v => ?_⟩
    · rw [hins.lifecycle_eq, hins'.lifecycle_eq]
    · rw [hins.lastWord_eq, hins'.lastWord_eq]
    · rw [hins.holds_iff, hins'.holds_iff, h.lastWord_eq, h.holds_iff]

theorem insert (h : Alike l l') (hl : l.lifecycle ≠ .closed) (w : Word σ) :
    Abreast ((fun r => (some r.1, r.2)) <$> (l.insert w).result)
      ((fun r => (some r.1, r.2)) <$> (l'.insert w).result) := by
  have hl' : l'.lifecycle ≠ .closed := h.lifecycle_eq ▸ hl
  cases hr : (l.insert w).result with
  | ok a =>
    have hins := h.valid.insert_ok hl hr
    cases hr' : (l'.insert w).result with
    | ok a' =>
      obtain ⟨isNew, k⟩ := a
      obtain ⟨isNew', k'⟩ := a'
      obtain ⟨rfl, halike⟩ := h.inserted hins (h.valid'.insert_ok hl' hr')
      exact .ok (some isNew) halike
    | error e =>
      rcases h.valid'.insert_error hl' hr' with ⟨rfl, -⟩ | ⟨-, hnew, hkeep, hfull⟩
      · exact .noSlot_right _
      · exact absurd hfull (h.not_full hins hnew hkeep)
  | error e =>
    rcases h.valid.insert_error hl hr with ⟨rfl, -⟩ | ⟨rfl, hnew, hkeep, hfull⟩
    · exact .noSlot_left _
    · cases hr' : (l'.insert w).result with
      | ok a' => exact absurd hfull (h.symm.not_full (h.valid'.insert_ok hl' hr') hnew hkeep)
      | error e' =>
        rcases h.valid'.insert_error hl' hr' with ⟨rfl, -⟩ | ⟨rfl, -⟩
        · exact .noSlot_right _
        · exact .error _

theorem addUnchecked (h : Alike l l') (w : Word σ) :
    Abreast (l.run (.addUnchecked w)) (l'.run (.addUnchecked w)) := by
  simp only [Lexicon.run]
  by_cases hl : l.lifecycle = .closed
  · rw [addUnchecked_of_closed hl, addUnchecked_of_closed (h.lifecycle_eq ▸ hl)]
    exact .error .closed
  · rw [addUnchecked_of_not_closed hl, addUnchecked_of_not_closed (h.lifecycle_eq ▸ hl)]
    exact h.insert hl w

theorem add (h : Alike l l') (w : Word σ) : Abreast (l.run (.add w)) (l'.run (.add w)) := by
  by_cases hl : l.lifecycle = .closed
  · simp only [Lexicon.run]
    rw [add_of_closed hl, add_of_closed (h.lifecycle_eq ▸ hl)]
    exact .error .closed
  have hl' : l'.lifecycle ≠ .closed := h.lifecycle_eq ▸ hl
  simp only [Lexicon.run]
  by_cases hw : w < l.automaton.lastWord
  · rw [add_of_lt hl hw, add_of_lt hl' (h.lastWord_eq ▸ hw), h.lastWord_eq]
    exact .error (.outOfOrder l'.automaton.lastWord w)
  · rw [add_of_not_lt hl hw, add_of_not_lt hl' (h.lastWord_eq ▸ hw)]
    exact h.insert hl w

theorem close (h : Alike l l') : Abreast (l.run .close) (l'.run .close) := by
  obtain ⟨k, hk, hshut⟩ := h.valid.close_spec
  obtain ⟨k', hk', hshut'⟩ := h.valid'.close_spec
  simp only [Lexicon.run]
  rw [hk, hk']
  refine .ok none ⟨hshut.valid, hshut'.valid, ?_, ?_, fun v => ?_⟩
  · rw [hshut.lifecycle_eq, hshut'.lifecycle_eq]
  · have hpath := hshut.valid.path_eq (by rw [hshut.lifecycle_eq]; decide)
    have hpath' := hshut'.valid.path_eq (by rw [hshut'.lifecycle_eq]; decide)
    rw [lastWord, lastWord, hpath, hpath']
  · rw [hshut.holds_iff, hshut'.holds_iff, h.holds_iff]

theorem clear (l l' : Lexicon σ) : Abreast (l.run .clear) (l'.run .clear) := by
  obtain ⟨k, hk, hvalid, hauto, hlife⟩ := clear_spec l
  obtain ⟨k', hk', hvalid', hauto', hlife'⟩ := clear_spec l'
  simp only [Lexicon.run]
  rw [hk, hk']
  refine .ok none ⟨hvalid, hvalid', hlife.trans hlife'.symm, by rw [hauto, hauto'], fun v => ?_⟩
  exact iff_of_false (not_holds_initial hauto) (not_holds_initial hauto')

theorem number (h : Alike l l') : Abreast (l.run .number) (l'.run .number) := by
  obtain ⟨n, hn, hcomp, -⟩ := h.valid.numbering_spec
  obtain ⟨n', hn', hcomp', -⟩ := h.valid'.numbering_spec
  simp only [Lexicon.run]
  rw [hn, hn']
  exact .ok none
    (((h.valid.alike_remember hcomp).symm.trans h).trans (h.valid'.alike_remember hcomp'))

/-- **One change keeps lexicons alike**, and they answer the same to it. -/
theorem run (h : Alike l l') (c : Change σ) : Abreast (l.run c) (l'.run c) := by
  cases c with
  | add w => exact h.add w
  | addUnchecked w => exact h.addUnchecked w
  | close => exact h.close
  | clear => exact clear l l'
  | number => exact h.number

/-- The answers to one change are the same as long as there are slots. -/
theorem next (h : Alike l l') {c : Change σ} (hc : l.answer c ≠ noSlot)
    (hc' : l'.answer c ≠ noSlot) :
    l.answer c = l'.answer c ∧ Alike (l.next c) (l'.next c) := by
  have hboth := h.run c
  unfold answer at hc hc' ⊢
  unfold Lexicon.next
  generalize l.run c = r at hboth hc ⊢
  generalize l'.run c = r' at hboth hc' ⊢
  cases hboth with
  | ok b halike => exact ⟨rfl, halike⟩
  | error e => exact ⟨rfl, h⟩
  | noSlot_left => exact absurd rfl hc
  | noSlot_right => exact absurd rfl hc'

/-! ## Any number of changes -/

/-- **Lexicons that are alike stay alike**, and answer the same all the way. -/
theorem after (h : Alike l l') (cs : List (Change σ)) (hcs : noSlot ∉ l.answers cs)
    (hcs' : noSlot ∉ l'.answers cs) :
    l.answers cs = l'.answers cs ∧ Alike (l.after cs) (l'.after cs) := by
  induction cs generalizing l l' with
  | nil => exact ⟨rfl, h⟩
  | cons c cs ih =>
    rw [answers, List.mem_cons, not_or] at hcs hcs'
    obtain ⟨hanswer, hnext⟩ := h.next (Ne.symm hcs.1) (Ne.symm hcs'.1)
    obtain ⟨hanswers, hafter⟩ := ih hnext hcs.2 hcs'.2
    exact ⟨by rw [answers, answers, hanswer, hanswers], hafter⟩

end Alike

/-- From now on two lexicons answer the same to all changes and to all questions after them, as long
as there are slots. -/
def Indistinguishable [SymbolCode σ] (l l' : Lexicon σ) : Prop :=
  ∀ cs, noSlot ∉ l.answers cs → noSlot ∉ l'.answers cs →
    l.answers cs = l'.answers cs ∧ Agree (l.after cs) (l'.after cs)

theorem Alike.indistinguishable [SymbolCode σ] (h : Alike l l') : Indistinguishable l l' := by
  intro cs hcs hcs'
  obtain ⟨hanswers, hafter⟩ := h.after cs hcs hcs'
  exact ⟨hanswers, hafter.agree⟩

/-- **A lexicon can be dumped and loaded again**, unless it has too many states or edges to count, and
the loaded lexicon goes on as the dumped one does. -/
theorem Reachable.resume [SymbolCode σ] (h : Reachable l)
    (hstates : {s | l.arena.Reaches l.root s}.ncard < 2 ^ 32)
    (hedges : {e : StateId × σ × StateId |
      l.arena.Reaches l.root e.1 ∧ l.arena.Edge e.1 e.2.1 e.2.2}.ncard < 2 ^ 32)
    (identity : Nat) :
    ∃ bs m l', l.dump.result = .ok (bs, m) ∧ (Lexicon.load identity bs).result = .ok l' ∧
      Indistinguishable l l' ∧ Indistinguishable m l' := by
  obtain ⟨bs, n, l', hdump, hcomp, hload, halike⟩ := h.valid.exists_load hstates hedges identity
  have hremember := h.valid.alike_remember hcomp
  exact ⟨bs, _, l', hdump, hload, halike.indistinguishable,
    (hremember.symm.trans halike).indistinguishable⟩

/-- The word 24 has taken the word 23 away, whose states 13 shares. It stays away in the lexicon that is
loaded from the dump, and nothing else tells the two apart either. -/
theorem resume_of_overwritten :
    ∃ (l l' m : Lexicon UInt8) (bs : Bytes),
      l = (new 0).after [.addUnchecked [2, 3], .addUnchecked [1, 3], .addUnchecked [2, 4]] ∧
      l.contains [2, 3] = .ok false ∧ l.dump.result = .ok (bs, m) ∧ (load 1 bs).result = .ok l' ∧
      l'.contains [2, 3] = .ok false ∧ Indistinguishable l l' ∧ Indistinguishable m l' := by
  obtain ⟨l, hl⟩ : ∃ l : Lexicon UInt8,
      l = (new 0).after [.addUnchecked [2, 3], .addUnchecked [1, 3], .addUnchecked [2, 4]] := ⟨_, rfl⟩
  have hrun : ((fun r => (r.1.nodes.length, r.1.edges.length)) <$> l.contents.result,
      l.contains [2, 3]) = (.ok (5, 4), .ok false) := by
    subst hl
    cbv
  obtain ⟨hlengths, hlost⟩ := Prod.mk.inj hrun
  have hreach : l.Reachable := hl ▸ .after (.new 0) _
  obtain ⟨hstates, hedges⟩ := hreach.valid.ncard_of_lengths hlengths
  obtain ⟨bs, m, l', hdump, hload, h, h'⟩ := Reachable.resume hreach
    (by rw [hstates]; decide) (by rw [hedges]; decide) 1
  obtain ⟨-, hagree⟩ := h [] List.not_mem_nil List.not_mem_nil
  exact ⟨l, l', m, bs, hl, hlost, hdump, hload, (hagree.contains_eq _).symm.trans hlost, h, h'⟩

end WordGraph.Lexicon
