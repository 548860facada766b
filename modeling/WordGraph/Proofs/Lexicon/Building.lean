import Mathlib
import WordGraph.Proofs.Arena.Walk
import WordGraph.Proofs.Lexicon.Valid

/-!
# Building in order

As long as words are only added in order, no word is ever lost: a word that does not come before the
last one takes no edge. So a lexicon that is built in order behaves as a set of words that remembers
its greatest member.

* `Built` — the runs, each with the set of words, the last word and the life that it ought to lead to
* `Ordered` — the lexicon at the end of a run is the set
* `OrderedSet` — what the operations on such a lexicon answer
* `Built.orderedSet` — they do so after every run
-/

namespace WordGraph.Lexicon

open Arena Automaton

variable {σ : Type} [Symbol σ] {l l' : Lexicon σ} {L : Set (Word σ)} {w v last : Word σ}
  {life : Lifecycle} {isNew : Bool} {e : Error σ}

/-- A lexicon has been built in order, from nothing, by adding words, closing and clearing. The words
added since the last clearing make up the set. -/
inductive Built : Lexicon σ → Set (Word σ) → Word σ → Lifecycle → Prop
  | new (identity : Nat) : Built (.new identity) ∅ [] .empty
  | add {l l' : Lexicon σ} {L : Set (Word σ)} {last w : Word σ} {life : Lifecycle} {isNew : Bool}
      (h : Built l L last life) (h' : (l.add w).result = .ok (isNew, l')) :
      Built l' (L ∪ {w}) w .active
  | close {l l' : Lexicon σ} {L : Set (Word σ)} {last : Word σ} {life : Lifecycle}
      (h : Built l L last life) (h' : l.close.result = .ok l') : Built l' L last .closed
  | clear {l l' : Lexicon σ} {L : Set (Word σ)} {last : Word σ} {life : Lifecycle}
      (h : Built l L last life) (h' : l.clear.result = .ok l') : Built l' ∅ [] .empty
  /-- Being asked for a number in between, which makes the lexicon remember its numbering. -/
  | numbering {l l' : Lexicon σ} {L : Set (Word σ)} {last : Word σ} {life : Lifecycle}
      {n : Numbering} (h : Built l L last life) (h' : l.numbering.result = .ok (n, l')) :
      Built l' L last life

/-! ## Words in order -/

/-- A word that does not come before the last one takes no edge along which a word is accepted. -/
theorem not_displaces_of_not_lt (hw : ¬w < last) (hv : ¬last < v) : ¬Displaces last w v := by
  rintro ⟨hk, u, rfl⟩
  fun_induction Word.commonPrefixLength w last with
  | case1 a w last ih =>
    rw [List.take_succ_cons, List.cons_append, List.cons_lt_cons_self] at hv
    exact ih (fun hlt => hw (List.cons_lt_cons_self.2 hlt)) (Nat.lt_of_succ_lt_succ hk) hv
  | case2 a w b last hne =>
    -- the word goes on with the greater symbol, and so does the word that takes the edge
    have hlt : b < a := by
      refine Symbol.lt_of_not_lt_of_ne (fun h => hw (List.Lex.rel h)) fun h => hne h.symm
    exact hv (List.Lex.rel hlt)
  | case3 w last hnil =>
    cases w with
    | nil => exact Nat.lt_irrefl _ hk
    | cons c w =>
      cases last with
      | nil => exact hv (List.nil_lt_cons ..)
      | cons d last => exact hnil c w d last rfl rfl

theorem eq_of_not_lt (h : ¬w < v) (h' : ¬v < w) : w = v := List.le_antisymm h' h

/-! ## The operations one by one -/

/-- Bringing a lexicon up to date concerns what it remembers of its words and nothing else. -/
theorem exists_eq_of_tally {i : Insertion} (h : (l.tally i w).result = .ok l') :
    ∃ size longest n?, l' = { l with size, longest, numbering? := n? } := by
  unfold tally at h
  split at h
  · unfold recount numbering at h
    simp only [Run.result_bind, bind_eq_ok_iff, Run.result_liftM_eq_ok_iff] at h
    obtain ⟨post, -, lengths, -, ⟨n, l₁⟩, hn, -, -, hl⟩ := h
    cases hl
    split at hn
    · cases hn
      exact ⟨_, _, _, rfl⟩
    · simp only [Run.result_bind, bind_eq_ok_iff] at hn
      obtain ⟨o, -, hn⟩ := hn
      cases o with
      | none => cases hn
      | some n =>
        simp only [Run.result_bind, Run.result_note, ok_bind] at hn
        cases hn
        exact ⟨_, _, _, rfl⟩
  · split at h
    · simp only [Run.result_bind, bind_eq_ok_iff] at h
      obtain ⟨n, -, h⟩ := h
      cases h
      exact ⟨_, _, _, rfl⟩
    · cases h
      exact ⟨_, _, _, rfl⟩

/-- A word is inserted by adding it to the automaton and bringing the lexicon up to date. -/
theorem exists_taken_of_insert (h : (l.insert w).result = .ok (isNew, l')) :
    ∃ g i ms size longest n?, l.automaton.add w = .ok (g, i, ms) ∧ isNew = i.added ∧
      l' = { l.taken g i.modified with size, longest, numbering? := n? } := by
  rw [insert, insertWithin_eq] at h
  simp only [Run.result_bind, bind_eq_ok_iff, Run.result_liftM_eq_ok_iff] at h
  obtain ⟨⟨g, i, ms⟩, hadd, -, -, l₁, htally, hl⟩ := h
  cases hl
  obtain ⟨size, longest, n?, rfl⟩ := exists_eq_of_tally htally
  exact ⟨g, i, ms, size, longest, n?, hadd, rfl, rfl⟩

/-- A word is added to a lexicon by adding it to its automaton. -/
theorem exists_add_of_insert (h : (l.insert w).result = .ok (isNew, l')) :
    ∃ i ms, l.automaton.add w = .ok (l'.automaton, i, ms) := by
  obtain ⟨g, i, ms, size, longest, n?, hadd, -, rfl⟩ := exists_taken_of_insert h
  exact ⟨i, ms, by rw [hadd, automaton_taken]⟩

/-- A lexicon that is not closed yet is closed by closing its automaton. -/
theorem exists_close_of_close (hl : l.lifecycle ≠ .closed) (h : l.close.result = .ok l') :
    ∃ g ms, l.automaton.close = .ok (g, ms) ∧
      l' = touch { l with automaton := g, lifecycle := .closed } := by
  unfold close at h
  simp only [if_neg hl, Run.result_bind, bind_eq_ok_iff, Run.result_liftM_eq_ok_iff] at h
  obtain ⟨⟨g, ms⟩, hrun, -, -, -, -, h⟩ := h
  cases h
  exact ⟨g, ms, hrun, rfl⟩

/-- A valid lexicon has as many words as its size says. -/
theorem Valid.encard_holds (h : l.Valid) : {w | l.Holds w}.encard = l.size := by
  rw [h.size_eq]
  exact encard_accepts h.sound.dag_root

/-- The size of a valid lexicon is the number of its words. -/
theorem Valid.size_eq_ncard (h : l.Valid) : l.size = {w | l.Holds w}.ncard := by
  rw [Set.ncard, h.encard_holds, ENat.toNat_natCast]

/-! ## The lexicon is the set -/

/-- A lexicon that was built in order is a set of words, of which the last one is the greatest. -/
structure Ordered (l : Lexicon σ) (L : Set (Word σ)) (last : Word σ) (life : Lifecycle) :
    Prop where
  valid : l.Valid
  lifecycle_eq : l.lifecycle = life
  holds_iff : ∀ v, l.Holds v ↔ v ∈ L
  lastWord_eq : life ≠ .closed → l.automaton.lastWord = last
  nonempty : life = .active → L.Nonempty
  last_mem : L.Nonempty → last ∈ L
  not_last_lt : ∀ v ∈ L, ¬last < v

namespace Ordered

/-- Words that are not empty are out of order only if there is a word that they come before. -/
theorem nonempty_of_lt (h : Ordered l L last life) (hl : life ≠ .closed)
    (hw : w < l.automaton.lastWord) : L.Nonempty := by
  cases life with
  | closed => exact absurd rfl hl
  | active => exact h.nonempty rfl
  | empty =>
    have hpath := h.valid.path_eq (by rw [h.lifecycle_eq]; decide)
    rw [lastWord, hpath] at hw
    exact absurd hw (List.not_lt_nil _)

/-- In order, the last word is the only one of its words that a lexicon is given again. -/
theorem eq_last (h : Ordered l L last life) (hw : ¬w < last) (hmem : w ∈ L) : w = last :=
  eq_of_not_lt hw (h.not_last_lt w hmem)

/-- Whether a word is out of order. -/
theorem lt_iff (h : Ordered l L last life) (hl : life ≠ .closed) :
    w < l.automaton.lastWord ↔ L.Nonempty ∧ w < last := by
  refine ⟨fun hw => ⟨h.nonempty_of_lt hl hw, ?_⟩, fun hw => ?_⟩
  · rwa [← h.lastWord_eq hl]
  · rw [h.lastWord_eq hl]
    exact hw.2

theorem not_displaces (h : Ordered l L last life) (hl : life ≠ .closed) (hw : ¬w < last)
    (hv : l.Holds v) : ¬Displaces l.automaton.lastWord w v := by
  rw [h.lastWord_eq hl]
  exact not_displaces_of_not_lt hw (h.not_last_lt v ((h.holds_iff v).1 hv))

theorem new (identity : Nat) : Ordered (.new identity : Lexicon σ) ∅ [] .empty where
  valid := .new identity
  lifecycle_eq := rfl
  holds_iff _ := ⟨fun h => absurd h (not_holds_initial rfl), fun h => absurd h (Set.notMem_empty _)⟩
  lastWord_eq _ := rfl
  nonempty := nofun
  last_mem h := absurd h Set.not_nonempty_empty
  not_last_lt _ h := absurd h (Set.notMem_empty _)

/-- What adding a word in order does to the set. -/
theorem insert (h : Ordered l L last life) (hl : life ≠ .closed) (hw : ¬w < last)
    (hr : (l.insert w).result = .ok (isNew, l')) :
    Ordered l' (L ∪ {w}) w .active ∧ (isNew ↔ w ∉ L) := by
  have hl' : l.lifecycle ≠ .closed := h.lifecycle_eq ▸ hl
  have hins := h.valid.insert_ok hl' hr
  refine ⟨⟨hins.valid, hins.lifecycle_eq, fun v => ?_, fun _ => hins.lastWord_eq,
    fun _ => ⟨w, .inr rfl⟩, fun _ => .inr rfl, fun v hv => ?_⟩, ?_⟩
  · rw [hins.holds_iff, Set.mem_union, Set.mem_singleton_iff, ← h.holds_iff, or_comm]
    exact or_congr_left (and_iff_left_of_imp (h.not_displaces hl hw))
  · rcases hv with hv | rfl
    · intro hlt
      -- the last word lies between the two
      by_cases heq : w = last
      · exact h.not_last_lt v hv (heq ▸ hlt)
      · have hlast : last < w := by
          by_contra hn
          exact heq (eq_of_not_lt hw hn)
        exact h.not_last_lt v hv (List.lt_trans hlast hlt)
    · exact List.lt_irrefl _
  · rw [hins.isNew_iff, h.holds_iff, h.lastWord_eq hl, not_iff_not]
    refine ⟨fun hm => hm.2, fun hm => ⟨?_, hm⟩⟩
    rw [h.eq_last hw hm]

/-- Only a word that is not in the set can be too much. -/
theorem insert_error (h : Ordered l L last life) (hl : life ≠ .closed) (hw : ¬w < last)
    (hr : (l.insert w).result = .error e) :
    w ∉ L ∧ (e = .fault .arenaFull ∧ slotLimit < l.stateCount + w.length ∨
      e = .fault .countOverflow ∧ L.ncard + 1 = countLimit) := by
  rcases h.valid.insert_error (h.lifecycle_eq ▸ hl) hr with ⟨he, hpre, hlt⟩ | ⟨he, hnew, -, hsize⟩
  · refine ⟨fun hm => hpre ?_, .inl ⟨he, hlt⟩⟩
    rw [h.lastWord_eq hl, h.eq_last hw hm]
  · refine ⟨fun hm => hnew ((h.holds_iff w).2 hm), .inr ⟨he, ?_⟩⟩
    have hset : {v | l.Holds v} = L := Set.ext h.holds_iff
    rw [← hset, ← h.valid.size_eq_ncard, hsize]

/-- A word in order is taken if there are slots for its states and the words can be counted. -/
theorem exists_add (h : Ordered l L last life) (hl : life ≠ .closed) (hw : ¬w < last)
    (hroom : l.stateCount + w.length ≤ slotLimit) (hcount : L.ncard + 1 < countLimit) :
    ∃ isNew l', (l.add w).result = .ok (isNew, l') ∧ (isNew ↔ w ∉ L) ∧
      Ordered l' (L ∪ {w}) w .active ∧ l'.stateCount ≤ l.stateCount + w.length := by
  have hopen : l.lifecycle ≠ .closed := h.lifecycle_eq ▸ hl
  rw [add_of_not_lt hopen (h.lastWord_eq hl ▸ hw)]
  cases hr : (l.insert w).result with
  | error e =>
    rcases (h.insert_error hl hw hr).2 with ⟨-, hfull⟩ | ⟨-, hover⟩
    · exact absurd hroom (Nat.not_le_of_lt hfull)
    · exact absurd hover (Nat.ne_of_lt hcount)
  | ok r =>
    obtain ⟨isNew, l'⟩ := r
    obtain ⟨hord, hnew⟩ := h.insert hl hw hr
    obtain ⟨i, ms, hadd⟩ := Lexicon.exists_add_of_insert hr
    exact ⟨isNew, l', rfl, hnew, hord, ((h.valid.growing hopen).add_ok hadd).live_le⟩

/-- The last word is taken again, and nothing changes. -/
theorem insert_again (h : Ordered l L last life) (hl : life ≠ .closed) (hmem : last ∈ L) :
    (l.insert last).result = .ok (false, l) := by
  have hlast : ¬last < last := List.lt_irrefl _
  cases hr : (l.insert last).result with
  | error e => exact absurd hmem (h.insert_error hl hlast hr).1
  | ok r =>
    obtain ⟨isNew, l'⟩ := r
    have hins := h.valid.insert_ok (h.lifecycle_eq ▸ hl) hr
    have hold : isNew = false := by
      rw [← Bool.not_eq_true, (h.insert hl hlast hr).2, not_not]
      exact hmem
    rw [hold, hins.eq_of_last (h.lastWord_eq hl).symm ((h.holds_iff last).2 hmem)]

/-- A new word takes no edge. -/
theorem exists_add_of_insert (h : Ordered l L last life) (hl : life ≠ .closed) (hw : ¬w < last)
    (hr : (l.insert w).result = .ok (isNew, l')) :
    ∃ i ms, l.automaton.add w = .ok (l'.automaton, i, ms) ∧ i.overwrote = false := by
  obtain ⟨i, ms, hadd⟩ := Lexicon.exists_add_of_insert hr
  refine ⟨i, ms, hadd, ?_⟩
  have hadded := (h.valid.growing (h.lifecycle_eq ▸ hl)).add_ok hadd
  rw [← Bool.not_eq_true, hadded.overwrote_iff]
  rintro ⟨v, hv, hd⟩
  exact h.not_displaces hl hw hv hd

theorem close (h : Ordered l L last life) (hr : l.close.result = .ok l') :
    Ordered l' L last .closed := by
  obtain ⟨l₁, hrun, hshut⟩ := h.valid.close_spec
  rw [hrun] at hr
  cases hr
  exact ⟨hshut.valid, hshut.lifecycle_eq, fun v => by rw [hshut.holds_iff, h.holds_iff],
    fun hne => absurd rfl hne, nofun, h.last_mem, h.not_last_lt⟩

theorem clear (hr : l.clear.result = .ok l') : Ordered l' (∅ : Set (Word σ)) [] .empty := by
  obtain ⟨l₁, hrun, hvalid, hauto, hlife⟩ := clear_spec l
  rw [hrun] at hr
  cases hr
  refine ⟨hvalid, hlife, fun v => ⟨fun hv => absurd hv (not_holds_initial hauto),
    fun hv => absurd hv (Set.notMem_empty _)⟩, fun _ => ?_, nofun,
    fun hn => absurd hn Set.not_nonempty_empty, fun _ hv => absurd hv (Set.notMem_empty _)⟩
  rw [hauto]
  rfl

theorem numbering (h : Ordered l L last life) {n : Numbering}
    (hr : l.numbering.result = .ok (n, l')) : Ordered l' L last life := by
  obtain ⟨m, hrun, hcomp, -⟩ := h.valid.numbering_spec
  rw [hrun] at hr
  cases hr
  exact ⟨h.valid.remember hcomp, h.lifecycle_eq, h.holds_iff, h.lastWord_eq, h.nonempty,
    h.last_mem, h.not_last_lt⟩

end Ordered

/-- Every run keeps the lexicon and the set together. -/
theorem Built.ordered (h : Built l L last life) : Ordered l L last life := by
  induction h with
  | new identity => exact .new identity
  | add _ hr ih =>
    obtain ⟨hl, hlt, hins⟩ := insert_of_add hr
    have hlast := ih.lastWord_eq (ih.lifecycle_eq ▸ hl)
    exact (ih.insert (ih.lifecycle_eq ▸ hl) (hlast ▸ hlt) hins).1
  | close _ hr ih => exact ih.close hr
  | clear _ hr => exact .clear hr
  | numbering _ hr ih => exact ih.numbering hr

/-! ## What the operations answer -/

/-- What a set answers when it is given a word: it is closed, the word is out of order, the word is the
last one again, the word is new, or the word is new and there is no room for it. -/
inductive Answer (l : Lexicon σ) (L : Set (Word σ)) (last : Word σ) (life : Lifecycle) (w : Word σ) :
    Except (Error σ) (Bool × Lexicon σ) → Prop
  | closed (hl : life = .closed) : Answer l L last life w (.error .closed)
  | outOfOrder (hl : life ≠ .closed) (hne : L.Nonempty) (hw : w < last) :
      Answer l L last life w (.error (.outOfOrder last w))
  | again (hl : life ≠ .closed) (hmem : last ∈ L) (hw : w = last) :
      Answer l L last life w (.ok (false, l))
  | new {l' : Lexicon σ} (hl : life ≠ .closed) (hw : ¬w < last) (hnew : w ∉ L)
      (hr : (l.insert w).result = .ok (true, l')) : Answer l L last life w (.ok (true, l'))
  | full {f : Fault} (hl : life ≠ .closed) (hw : ¬w < last) (hnew : w ∉ L)
      (hf : f = .arenaFull ∧ slotLimit < l.stateCount + w.length ∨
        f = .countOverflow ∧ L.ncard + 1 = countLimit) : Answer l L last life w (.error (.fault f))

/-- Adding a word has one of these answers. -/
theorem Ordered.answer (h : Ordered l L last life) (w : Word σ) :
    Answer l L last life w (l.add w).result := by
  by_cases hl : life = .closed
  · rw [add_of_closed (h.lifecycle_eq.trans hl)]
    exact .closed hl
  have hl' : l.lifecycle ≠ .closed := h.lifecycle_eq ▸ hl
  by_cases hlt : w < l.automaton.lastWord
  · obtain ⟨hne, hw⟩ := (h.lt_iff hl).1 hlt
    rw [add_of_lt hl' hlt, h.lastWord_eq hl]
    exact .outOfOrder hl hne hw
  have hw : ¬w < last := by rwa [← h.lastWord_eq hl]
  rw [add_of_not_lt hl' hlt]
  cases hr : (l.insert w).result with
  | error e =>
    obtain ⟨hnew, ⟨rfl, hf⟩ | ⟨rfl, hf⟩⟩ := h.insert_error hl hw hr
    · exact .full hl hw hnew (.inl ⟨rfl, hf⟩)
    · exact .full hl hw hnew (.inr ⟨rfl, hf⟩)
  | ok r =>
    obtain ⟨isNew, l'⟩ := r
    have hiff := (h.insert hl hw hr).2
    cases isNew with
    | true => exact .new hl hw (hiff.1 rfl) hr
    | false =>
      have hmem : w ∈ L := by
        by_contra hnew
        exact Bool.false_ne_true (hiff.2 hnew)
      obtain rfl := h.eq_last hw hmem
      rw [h.insert_again hl hmem] at hr
      cases hr
      exact .again hl hmem rfl

namespace Answer

variable {r : Except (Error σ) (Bool × Lexicon σ)}

theorem closed_iff (h : Answer l L last life w r) : r = .error .closed ↔ life = .closed := by
  cases h with
  | closed hl => simp [hl]
  | outOfOrder hl => simp [hl]
  | again hl => simp [hl]
  | new hl => simp [hl]
  | full hl => simp [hl]

theorem outOfOrder_iff (h : Answer l L last life w r) {p : Word σ} :
    r = .error (.outOfOrder p v) ↔
      life ≠ .closed ∧ L.Nonempty ∧ w < last ∧ p = last ∧ v = w := by
  cases h with
  | closed hl => simp [hl]
  | outOfOrder hl hne hw => simp [hl, hne, hw, eq_comm]
  | again hl hmem hw => simp [hw, List.lt_irrefl]
  | new hl hw => simp [hw]
  | full hl hw => simp [hw]

theorem new_iff (h : Answer l L last life w r) :
    (∃ l', r = .ok (true, l')) ↔
      life ≠ .closed ∧ ¬(L.Nonempty ∧ w < last) ∧ w ∉ L ∧ ∀ f, r ≠ .error (.fault f) := by
  cases h with
  | closed hl => simp [hl]
  | outOfOrder hl hne hw => simp [hne, hw]
  | again hl hmem hw => simp [hw, hmem]
  | new hl hw hnew => simp [hl, hw, hnew]
  | full => simp

theorem again_iff (h : Answer l L last life w r) :
    r = .ok (false, l') ↔ life ≠ .closed ∧ last ∈ L ∧ w = last ∧ l' = l := by
  cases h with
  | closed hl => simp [hl]
  | outOfOrder hl hne hw =>
    simp only [reduceCtorEq, false_iff]
    rintro ⟨-, -, rfl, -⟩
    exact List.lt_irrefl _ hw
  | again hl hmem hw => simp [hl, hmem, hw, eq_comm]
  | new hl hw hnew =>
    simp only [Except.ok.injEq, Prod.mk.injEq, reduceCtorEq, false_and, false_iff]
    rintro ⟨-, hmem, rfl, -⟩
    exact hnew hmem
  | full hl hw hnew =>
    simp only [reduceCtorEq, false_iff]
    rintro ⟨-, hmem, rfl, -⟩
    exact hnew hmem

end Answer

/-- A lexicon behaves as a set of words to which words are added in order. -/
structure OrderedSet (l : Lexicon σ) (L : Set (Word σ)) (last : Word σ) (life : Lifecycle) :
    Prop where
  lifecycle_eq : l.lifecycle = life
  contains : ∀ v, ∃ b, l.contains v = .ok b ∧ (b ↔ v ∈ L)
  closed_iff : ∀ w, (l.add w).result = .error .closed ↔ life = .closed
  outOfOrder_iff : ∀ w p v, (l.add w).result = .error (.outOfOrder p v) ↔
    life ≠ .closed ∧ L.Nonempty ∧ w < last ∧ p = last ∧ v = w
  /-- Only the limits of the arena and of the number of words are in the way. -/
  fault : ∀ w f, (l.add w).result = .error (.fault f) →
    f = .arenaFull ∧ slotLimit < l.stateCount + w.length ∨
      f = .countOverflow ∧ w ∉ L ∧ L.ncard + 1 = countLimit
  new_iff : ∀ w, (∃ l', (l.add w).result = .ok (true, l')) ↔
    life ≠ .closed ∧ ¬(L.Nonempty ∧ w < last) ∧ w ∉ L ∧
      ∀ f, (l.add w).result ≠ .error (.fault f)
  /-- A new word comes behind the last one, joins the others, and takes no edge. -/
  of_new : ∀ w l', (l.add w).result = .ok (true, l') →
    (L.Nonempty → last < w) ∧ (∀ v, l'.Holds v ↔ v = w ∨ v ∈ L) ∧ l'.automaton.lastWord = w ∧
      ∃ i ms, l.automaton.add w = .ok (l'.automaton, i, ms) ∧ i.overwrote = false
  /-- A word that is not new is the last one, and leaves everything as it is. -/
  again_iff : ∀ w l', (l.add w).result = .ok (false, l') ↔
    life ≠ .closed ∧ L.Nonempty ∧ w = last ∧ l' = l
  close : ∃ l', l.close.result = .ok l' ∧ ∀ v, l'.Holds v ↔ v ∈ L
  clear : ∃ l', l.clear.result = .ok l' ∧ ∀ v, ¬l'.Holds v

/-- **A lexicon that is built in order behaves as a set of words**, after every run. -/
theorem Built.orderedSet (h : Built l L last life) : OrderedSet l L last life := by
  have hord := h.ordered
  have hne : L.Nonempty ↔ last ∈ L := ⟨hord.last_mem, fun h => ⟨last, h⟩⟩
  constructor
  case lifecycle_eq => exact hord.lifecycle_eq
  case contains =>
    intro v
    obtain ⟨b, hb, hiff⟩ := exists_contains hord.valid.sound.dag_root.intact v
    exact ⟨b, hb, hiff.trans (hord.holds_iff v)⟩
  case closed_iff => exact fun w => (hord.answer w).closed_iff
  case outOfOrder_iff => exact fun w p v => (hord.answer w).outOfOrder_iff
  case new_iff => exact fun w => (hord.answer w).new_iff
  case again_iff =>
    intro w l'
    rw [hne]
    exact (hord.answer w).again_iff
  case fault =>
    intro w f he
    have ha := hord.answer w
    rw [he] at ha
    cases ha with
    | full _ _ hnew hf => exact hf.imp_right fun ⟨hf, hn⟩ => ⟨hf, hnew, hn⟩
  case of_new =>
    intro w l' he
    have ha := hord.answer w
    rw [he] at ha
    cases ha with
    | new hl hw hnew hr =>
      obtain ⟨hord', -⟩ := hord.insert hl hw hr
      refine ⟨fun hL => ?_, fun v => ?_, hord'.lastWord_eq (by decide),
        hord.exists_add_of_insert hl hw hr⟩
      · by_contra hlt
        exact hnew (eq_of_not_lt hw hlt ▸ hne.1 hL)
      · rw [hord'.holds_iff, or_comm]
        rfl
  case close =>
    obtain ⟨l', hr, hshut⟩ := hord.valid.close_spec
    exact ⟨l', hr, fun v => by rw [hshut.holds_iff, hord.holds_iff]⟩
  case clear =>
    obtain ⟨l', hr, -, hauto, -⟩ := clear_spec l
    exact ⟨l', hr, fun v => not_holds_initial hauto⟩

/-- With 3 behind them, the words 12 and 22 share all states but the start. No word before 3 is taken any
more, and 3 itself is not new. -/
theorem orderedSet_of_three_words :
    ∃ l₂ l : Lexicon UInt8,
      (((new 0).add [1, 2]).result >>= fun r => (r.2.add [2, 2]).result) = .ok (true, l₂) ∧
      l₂.stateCount = 5 ∧ (l₂.add [3]).result = .ok (true, l) ∧ l.stateCount = 4 ∧
      OrderedSet l {[1, 2], [2, 2], [3]} [3] .active ∧
      (l.add [2, 3]).result = .error (.outOfOrder [3] [2, 3]) ∧
      (l.add [3]).result = .ok (false, l) := by
  have hrun : (fun r => (r.1.1, r.1.2.stateCount, r.2.1, r.2.2.stateCount)) <$>
      (((new 0 : Lexicon UInt8).add [1, 2]).result >>= fun r₁ =>
        (r₁.2.add [2, 2]).result >>= fun r₂ =>
          (fun r₃ => (r₂, r₃)) <$> (r₂.2.add [3]).result) = .ok (true, 5, true, 4) := by cbv
  obtain ⟨⟨⟨b₂, l₂⟩, b₃, l⟩, h, he⟩ := map_eq_ok_iff.1 hrun
  obtain ⟨⟨b₁, l₁⟩, h₁, h⟩ := bind_eq_ok_iff.1 h
  obtain ⟨r₂, h₂, h⟩ := bind_eq_ok_iff.1 h
  obtain ⟨r₃, h₃, h⟩ := map_eq_ok_iff.1 h
  cases h
  simp only [Prod.mk.injEq] at he
  obtain ⟨rfl, hcount, rfl, hcount'⟩ := he
  have hset := Built.orderedSet (.add (.add (.add (.new 0) h₁) h₂) h₃)
  rw [Set.empty_union, Set.union_assoc, Set.singleton_union, Set.singleton_union] at hset
  refine ⟨l₂, l, by rw [h₁]; exact h₂, hcount, h₃, hcount', hset, ?_, ?_⟩
  · exact (hset.outOfOrder_iff ..).2 ⟨by decide, Set.insert_nonempty .., by decide, rfl, rfl⟩
  · exact (hset.again_iff ..).2 ⟨by decide, Set.insert_nonempty .., rfl, rfl⟩

end WordGraph.Lexicon
