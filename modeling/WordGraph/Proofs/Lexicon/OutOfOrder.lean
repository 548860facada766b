import Mathlib.Data.Set.Card
import WordGraph.Proofs.Dump.Canonical
import WordGraph.Proofs.Lexicon.Building
import WordGraph.Proofs.Lexicon.Ghost

/-!
# Adding out of order

A word may be added that comes before the last one. Behind the part that it shares with the last word
it then may find an edge for its next symbol, with a settled state behind it that other words go
through as well. It takes that edge and no other: the words along the edge are lost, and no word
elsewhere is, however many edges have been taken and states merged before.

* `withWord` — a set of words after a word was added
* `Traced.lastWord_eq` — the path of the automaton is that of the word that was added last
* `Outcome` — what adding a word may come to
* `Traced.addition` — what adding a word does and what keeps it from being done, for every word at
  every time
-/

namespace WordGraph.Lexicon

open Arena Automaton

variable {σ : Type} [Symbol σ] {l l' : Lexicon σ} {L : Set (Word σ)} {p w v : Word σ} {isNew : Bool}

/-! ## Sets of words -/

/-- The set `L` after `w` was added behind `p`. If `w` goes on where `p` no longer agrees with it, the
words that start with `w` up to and including its next symbol are lost. -/
def withWord (L : Set (Word σ)) (p w : Word σ) : Set (Word σ) :=
  let k := w.commonPrefixLength p
  if k = w.length then L ∪ {w} else {v ∈ L | ¬w.take (k + 1) <+: v} ∪ {w}

/-- The words that are lost are those along the edge that the new word takes. -/
theorem mem_withWord_iff : v ∈ withWord L p w ↔ v = w ∨ v ∈ L ∧ ¬Displaces p w v := by
  have hle := Word.commonPrefixLength_le_left w p
  unfold withWord Displaces
  dsimp only
  split
  · next hk =>
    rw [hk, Set.mem_union, Set.mem_singleton_iff, or_comm,
      and_iff_left fun h => Nat.lt_irrefl _ h.1]
  · next hk =>
    rw [Set.mem_union, Set.mem_singleton_iff, or_comm, Set.mem_sep_iff,
      and_iff_right (Nat.lt_of_le_of_ne hle hk)]

/-- A new word that takes no edge makes the set greater by one. -/
theorem encard_withWord (hw : w ∉ L) (hL : ∀ v ∈ L, ¬Displaces p w v) :
    (withWord L p w).encard = L.encard + 1 := by
  have hset : withWord L p w = L ∪ {w} := by
    ext v
    rw [mem_withWord_iff, Set.mem_union, Set.mem_singleton_iff, or_comm]
    exact or_congr_left (and_iff_left_of_imp (hL v))
  rw [hset, Set.union_singleton, Set.encard_insert_of_notMem hw]

/-! ## The word that was added last -/

/-- **As long as words can be added, the automaton has the path of the word that was added last.** -/
theorem Traced.lastWord_eq (h : Traced .lastWord l p) :
    l.lifecycle ≠ .closed → l.automaton.lastWord = p := by
  refine h.invariant (I := fun l p => l.lifecycle ≠ .closed → l.automaton.lastWord = p)
    ?_ ?_ ?_ ?_ ?_
  · intro l _ hauto _
    rw [hauto]
    rfl
  · intro identity k l hwf hload _
    exact lastWord_of_ofContents hwf hload
  · intro l p w isNew l' _ _ hins _
    exact hins.lastWord_eq
  · intro l p l' _ _ hshut hl
    exact absurd hshut.lifecycle_eq hl
  · intro l p l' hlast hauto _ hlife hl
    rw [hauto]
    exact hlast (hlife ▸ hl)

/-! ## Adding a word -/

/-- A word was added behind `p` to a lexicon with the words `L`. -/
structure Took (L : Set (Word σ)) (p w : Word σ) (l' : Lexicon σ) : Prop where
  words_eq : {v | l'.Holds v} = withWord L p w
  lastWord_eq : l'.automaton.lastWord = w
  lifecycle_eq : l'.lifecycle = .active
  /-- No state lies on a cycle, in reach or not. -/
  acyclic : ∀ s v, l'.arena.Path s v s → v = []

theorem Took.holds_iff (h : Took L p w l') : l'.Holds v ↔ v = w ∨ v ∈ L ∧ ¬Displaces p w v := by
  rw [← mem_withWord_iff, ← h.words_eq]
  exact Iff.rfl

/-- What inserting a word makes of a lexicon whose last word is `p`. -/
theorem Inserted.took (h : Inserted l w isNew l') (hp : l.automaton.lastWord = p) :
    Took {v | l.Holds v} p w l' where
  words_eq := by
    ext v
    rw [mem_withWord_iff, ← hp]
    exact h.holds_iff v
  lastWord_eq := h.lastWord_eq
  lifecycle_eq := h.lifecycle_eq
  acyclic _ _ hv := by
    obtain ⟨rank, hr⟩ := h.valid.sound.ranked
    exact hr.acyclic hv

theorem Traced.took (h : Traced .lastWord l p) (hr : (l.addUnchecked w).result = .ok (isNew, l')) :
    Took {v | l.Holds v} p w l' := by
  obtain ⟨hl, hins⟩ := insert_of_addUnchecked hr
  exact (h.reachable.valid.insert_ok hl hins).took (h.lastWord_eq hl)

/-- Adding `w` behind `p` has one of these outcomes: it is done, there is no slot for a state, or there
would be one word more than can be counted. -/
inductive Outcome (l : Lexicon σ) (p w : Word σ) : Except (Error σ) (Bool × Lexicon σ) → Prop
  | took {isNew : Bool} {l' : Lexicon σ} (h : Took {v | l.Holds v} p w l') :
      Outcome l p w (.ok (isNew, l'))
  | arenaFull (h : slotLimit < l.stateCount + w.length) :
      Outcome l p w (.error (.fault .arenaFull))
  | countOverflow (h : (withWord {v | l.Holds v} p w).encard = countLimit) :
      Outcome l p w (.error (.fault .countOverflow))

/-- Inserting a word has one of the outcomes. -/
theorem Valid.outcome (h : l.Valid) (hl : l.lifecycle ≠ .closed) (hp : l.automaton.lastWord = p)
    (w : Word σ) : Outcome l p w (l.insert w).result := by
  cases hr : (l.insert w).result with
  | ok r =>
    obtain ⟨isNew, l'⟩ := r
    exact .took ((h.insert_ok hl hr).took hp)
  | error e =>
    rcases h.insert_error hl hr with ⟨rfl, -, hlt⟩ | ⟨rfl, hnew, hkeep, hsize⟩
    · exact .arenaFull hlt
    · refine .countOverflow ?_
      rw [encard_withWord hnew fun v hv => hp ▸ hkeep v hv, h.encard_holds]
      exact_mod_cast hsize

/-- **What adding a word does, in order or not.** For every lexicon that is not closed, whatever has
led to it, the words after the insertion are those that `withWord` says; a word that is taken in order
does the same. Only the limits of the arena and of the number of words are in the way. -/
theorem Traced.addition (h : Traced .lastWord l p) (hl : l.lifecycle ≠ .closed) (w : Word σ) :
    Outcome l p w (l.addUnchecked w).result ∧
      ∀ isNew l', (l.add w).result = .ok (isNew, l') → Took {v | l.Holds v} p w l' := by
  have hp := h.lastWord_eq hl
  have hvalid := h.reachable.valid
  constructor
  · rw [addUnchecked_of_not_closed hl]
    exact hvalid.outcome hl hp w
  · intro isNew l' hr
    obtain ⟨-, -, hins⟩ := insert_of_add hr
    exact (hvalid.insert_ok hl hins).took hp

/-- After 2 3 and 1 3, of which the second comes before the first, the word 2 4 takes the edge of 2 3,
which is lost. -/
theorem addition_of_three_words :
    ∃ l l' : Lexicon UInt8, Traced .lastWord l [1, 3] ∧
      (l.addUnchecked [2, 4]).result = .ok (true, l') ∧
      l.Holds [2, 3] ∧ Took {v | l.Holds v} [1, 3] [2, 4] l' ∧ ¬l'.Holds [2, 3] := by
  have hrun : (fun r => r.2.1) <$>
      (((new 0 : Lexicon UInt8).addUnchecked [2, 3]).result >>= fun r₁ =>
        (r₁.2.addUnchecked [1, 3]).result >>= fun r₂ =>
          (fun r₃ => (r₂, r₃)) <$> (r₂.2.addUnchecked [2, 4]).result) = .ok true := by cbv
  obtain ⟨⟨r₂, b, l'⟩, h, rfl⟩ := map_eq_ok_iff.1 hrun
  obtain ⟨⟨b₁, l₁⟩, h₁, h⟩ := bind_eq_ok_iff.1 h
  obtain ⟨⟨b₂, l⟩, h₂, h⟩ := bind_eq_ok_iff.1 h
  obtain ⟨r₃, h₃, h⟩ := map_eq_ok_iff.1 h
  cases h
  have hlast₁ : Traced .lastWord l₁ [2, 3] := .addUnchecked (.new 0) h₁
  have hlast : Traced .lastWord l [1, 3] := .addUnchecked hlast₁ h₂
  have htook₂ := hlast₁.took h₂
  have hl : l.lifecycle ≠ .closed := by
    rw [htook₂.lifecycle_eq]
    decide
  have hlost : l.Holds [2, 3] := htook₂.holds_iff.2 <| .inr
    ⟨((Traced.new 0).took h₁).holds_iff.2 (.inl rfl), by unfold Displaces; decide⟩
  have houtcome := (Traced.addition hlast hl [2, 4]).1
  rw [h₃] at houtcome
  obtain ⟨htook⟩ := houtcome
  refine ⟨l, l', hlast, h₃, hlost, htook, fun hheld => ?_⟩
  rcases htook.holds_iff.1 hheld with hnew | ⟨-, hkept⟩
  · exact absurd hnew (by decide)
  · exact hkept (by unfold Displaces; decide)

end WordGraph.Lexicon
