import Mathlib
import WordGraph.Proofs.Dump.Canonical
import WordGraph.Proofs.Lexicon.Building

/-!
# Keeping every word

A lexicon that was built in order keeps every word when words are added in order, and tells new words
from old ones. A lexicon that was loaded, or to which words were added out of order, does so as well if
its last word is the greatest. If it is not, then a word behind the last one may be there already: it
is taken for a new one, and going on from it takes its edge. Loading does not ask for the order of the
last word, so a dump with such a lexicon is loaded.

* `Extends` — adding words in order, any number of them
* `KeepsWords` — no such run loses a word or takes an old one for a new one
* `Valid.ordered` — a lexicon whose last word is the greatest is as one that was built in order
* `Built.exists_load` — so is what is loaded from the dump of one that was
* `Reachable.keepsWords_iff` — every word is kept just if the last word is the greatest
* `not_keepsWords_of_load` — a dump that is loaded though it is not
-/

namespace WordGraph.Lexicon

open Arena Automaton

variable {σ : Type} [Symbol σ] {l l' : Lexicon σ} {w v : Word σ} {isNew : Bool}

/-- Adding words in order to a lexicon makes another. Words that are refused are passed over. -/
inductive Extends (l : Lexicon σ) : Lexicon σ → Prop
  | refl : Extends l l
  | add {l₁ l' : Lexicon σ} {w : Word σ} {isNew : Bool} (h : Extends l l₁)
      (h' : (l₁.add w).result = .ok (isNew, l')) : Extends l l'

/-- However words are added in order, a word that is taken joins the words that there are, and is
called new just if it is none of them. -/
def KeepsWords (l : Lexicon σ) : Prop :=
  ∀ l₁ w isNew l', Extends l l₁ → (l₁.add w).result = .ok (isNew, l') →
    (∀ v, l'.Holds v ↔ v = w ∨ l₁.Holds v) ∧ (isNew ↔ ¬l₁.Holds w)

/-! ## The last word is the greatest -/

/-- A lexicon whose last word is the greatest is as one that was built in order. -/
theorem Valid.ordered (h : l.Valid) (hl : l.lifecycle ≠ .closed)
    (hlast : ∀ v, l.Holds v → ¬l.automaton.lastWord < v) :
    Ordered l {v | l.Holds v} l.automaton.lastWord l.lifecycle where
  valid := h
  lifecycle_eq := rfl
  holds_iff _ := Iff.rfl
  lastWord_eq _ := rfl
  nonempty hlife := ⟨l.automaton.lastWord, h.holds_lastWord hlife⟩
  last_mem := by
    rintro ⟨v, hv⟩
    exact h.holds_lastWord (h.lifecycle_eq hl hv)
  not_last_lt := hlast

/-- Adding words in order keeps a lexicon as one that was built in order. -/
theorem Extends.ordered {L : Set (Word σ)} {last : Word σ} {life : Lifecycle} (h : Extends l l')
    (hord : Ordered l L last life) (hl : life ≠ .closed) :
    ∃ L' last' life', life' ≠ .closed ∧ Ordered l' L' last' life' := by
  induction h with
  | refl => exact ⟨L, last, life, hl, hord⟩
  | add _ h' ih =>
    obtain ⟨L', last', life', hl', hord'⟩ := ih
    obtain ⟨-, hlt, hins⟩ := insert_of_add h'
    rw [hord'.lastWord_eq hl'] at hlt
    exact ⟨_, _, .active, by decide, (hord'.insert hl' hlt hins).1⟩

theorem Ordered.keepsWords {L : Set (Word σ)} {last : Word σ} {life : Lifecycle}
    (h : Ordered l L last life) (hl : life ≠ .closed) : KeepsWords l := by
  intro l₁ w isNew l' hrun hadd
  obtain ⟨L', last', life', hl', hord⟩ := hrun.ordered h hl
  obtain ⟨-, hlt, hins⟩ := insert_of_add hadd
  rw [hord.lastWord_eq hl'] at hlt
  obtain ⟨hord', hnew⟩ := hord.insert hl' hlt hins
  refine ⟨fun v => ?_, ?_⟩
  · rw [hord'.holds_iff, hord.holds_iff, Set.mem_union, Set.mem_singleton_iff, or_comm]
  · rw [hnew, hord.holds_iff]

/-- What is built in order is kept. -/
theorem Built.keepsWords {L : Set (Word σ)} {last : Word σ} {life : Lifecycle}
    (h : Built l L last life) (hl : life ≠ .closed) : KeepsWords l :=
  h.ordered.keepsWords hl

/-- What is built in order is also kept by the lexicon that is loaded from its dump. -/
theorem Built.exists_load [SymbolCode σ] {L : Set (Word σ)} {last : Word σ} {life : Lifecycle}
    (h : Built l L last life) (hl : life ≠ .closed) (hd : l.Dumpable) (identity : Nat) :
    ∃ bs m l', l.dump.result = .ok (bs, m) ∧ (load identity bs).result = .ok l' ∧
      (∀ v, l'.Holds v ↔ v ∈ L) ∧ KeepsWords l' := by
  have hord := h.ordered
  obtain ⟨bs, n, l', hdump, -, hload, halike⟩ :=
    hord.valid.exists_load hd.states hd.edges identity
  have hopen : l'.lifecycle ≠ .closed := by
    rw [← halike.lifecycle_eq, hord.lifecycle_eq]
    exact hl
  have hholds : ∀ v, l'.Holds v ↔ v ∈ L := by
    intro v
    rw [← halike.holds_iff, hord.holds_iff]
  have hlast : ∀ v, l'.Holds v → ¬l'.automaton.lastWord < v := by
    intro v hv
    rw [← halike.lastWord_eq, hord.lastWord_eq hl]
    exact hord.not_last_lt v ((hholds v).1 hv)
  exact ⟨bs, _, l', hdump, hload, hholds, (halike.valid'.ordered hopen hlast).keepsWords hopen⟩

/-! ## The last word is not the greatest -/

/-- A word behind the last one that is there already is taken for a new one. -/
theorem Valid.exists_add_of_lt (h : l.Valid) (hl : l.lifecycle ≠ .closed) (hv : l.Holds v)
    (hlt : l.automaton.lastWord < v) (hroom : l.stateCount + v.length ≤ slotLimit) :
    ∃ l', (l.add v).result = .ok (true, l') := by
  have hnot : ¬v < l.automaton.lastWord := fun hlt' => List.lt_irrefl _ (List.lt_trans hlt hlt')
  rw [add_of_not_lt hl hnot]
  cases hr : (l.insert v).result with
  | error e =>
    rcases h.insert_error hl hr with ⟨-, -, hfull⟩ | ⟨-, hnew, -⟩
    · exact absurd hroom (Nat.not_le_of_lt hfull)
    · exact absurd hv hnew
  | ok r =>
    obtain ⟨isNew, l'⟩ := r
    have hnew : isNew = true := by
      rw [(h.insert_ok hl hr).isNew_iff]
      rintro ⟨hpre, -⟩
      exact absurd hlt (List.not_lt.2 hpre.le)
    exact ⟨l', by rw [hnew]⟩

theorem Valid.not_keepsWords (h : l.Valid) (hl : l.lifecycle ≠ .closed) (hv : l.Holds v)
    (hlt : l.automaton.lastWord < v) (hroom : l.stateCount + v.length ≤ slotLimit) :
    ¬KeepsWords l := by
  intro hkeeps
  obtain ⟨l', hadd⟩ := h.exists_add_of_lt hl hv hlt hroom
  exact (hkeeps l v true l' .refl hadd).2.1 rfl hv

/-- **Every word is kept just if the last word is the greatest**, in a lexicon whose arena has room
for its words. -/
theorem Reachable.keepsWords_iff (h : Reachable l) (hl : l.lifecycle ≠ .closed)
    (hroom : l.stateCount + l.longest ≤ slotLimit) :
    KeepsWords l ↔ ∀ v, l.Holds v → ¬l.automaton.lastWord < v := by
  constructor
  · intro hkeeps v hv hlt
    have hle := h.valid.length_le hv
    exact h.valid.not_keepsWords hl hv hlt (by omega) hkeeps
  · intro hlast
    exact (h.valid.ordered hl hlast).keepsWords hl

/-- The words 1 and 2 are kept if they were added in this order, as 2 is the last word then. -/
theorem keepsWords_of_two_words :
    ∃ l : Lexicon UInt8, Reachable l ∧ l.Holds [1] ∧ l.Holds [2] ∧ KeepsWords l := by
  have hrun : (fun r => (r.2.lifecycle, r.2.stateCount, r.2.longest)) <$>
      (((new 0 : Lexicon UInt8).add [1]).result >>= fun r => (r.2.add [2]).result) =
        .ok (.active, 3, 1) := by cbv
  obtain ⟨⟨isNew, l⟩, h, hl⟩ := map_eq_ok_iff.1 hrun
  obtain ⟨⟨b, l₁⟩, h₁, h₂⟩ := bind_eq_ok_iff.1 h
  have hreach : Reachable l := .step (.step (.new 0) (.add h₁)) (.add h₂)
  have hord : Ordered l (∅ ∪ {[1]} ∪ {[2]}) [2] .active :=
    Built.ordered (.add (.add (.new 0) h₁) h₂)
  simp only [Prod.mk.injEq] at hl
  obtain ⟨hlife, hcount, hlong⟩ := hl
  refine ⟨l, hreach, (hord.holds_iff _).2 (by simp), (hord.holds_iff _).2 (by simp),
    (Reachable.keepsWords_iff hreach ?_ ?_).2 fun v hv => ?_⟩
  · rw [hlife]
    decide
  · rw [hcount, hlong]
    decide
  · rw [hord.lastWord_eq (by decide)]
    exact hord.not_last_lt v ((hord.holds_iff v).1 hv)

/-- The dump of an active lexicon with the words 1 and 2, of which the first was added last, is loaded.
The word 2, which is there, is taken for a new one, and going on from it loses it. -/
theorem not_keepsWords_of_load :
    let bs : Bytes := [0x44, 0x41, 0x57, 0x47, 1, 1, 1, 0, 2, 0, 0, 0, 0, 0, 0, 0, 1, 0, 0, 0, 3,
      0, 0, 0, 2, 0, 0, 0, 1, 0, 0, 0, 1, 0, 2, 0, 0, 0, 0, 0, 0, 0, 1, 1, 0, 0, 0, 0, 0, 0, 0, 1,
      1, 0, 0, 0, 0, 0, 0, 0, 0, 0, 0, 0, 1, 1, 0, 0, 0, 0, 0, 0, 0, 2, 2, 0, 0, 0]
    ∃ l : Lexicon UInt8, (load 0 bs).result = .ok l ∧ l.lifecycle = .active ∧ l.Holds [2] ∧
      (∃ l', (l.add [2]).result = .ok (true, l')) ∧
      (∃ l', (l.add [2, 5]).result = .ok (true, l') ∧ ¬l'.Holds [2]) ∧ ¬KeepsWords l := by
  intro bs
  have hrun : (fun l : Lexicon UInt8 => (l.lifecycle, l.automaton.lastWord, l.contains [2],
      Prod.fst <$> (l.add [2]).result, Prod.fst <$> (l.add [2, 5]).result, l.stateCount)) <$>
        (load 0 bs).result = .ok (.active, [1], .ok true, .ok true, .ok true, 3) := by cbv
  obtain ⟨l, hload, hl⟩ := map_eq_ok_iff.1 hrun
  simp only [Prod.mk.injEq] at hl
  obtain ⟨hlife, hlast, hcontains, hagain, hlonger, hcount⟩ := hl
  have hvalid := valid_of_load hload
  have hopen : l.lifecycle ≠ .closed := by
    rw [hlife]
    decide
  have hheld : l.Holds [2] := by
    obtain ⟨b, hb, hiff⟩ := exists_contains hvalid.sound.dag_root.intact [2]
    rw [hb] at hcontains
    cases hcontains
    exact hiff.1 rfl
  obtain ⟨⟨_, l₁⟩, hadd₁, rfl⟩ := map_eq_ok_iff.1 hagain
  obtain ⟨⟨_, l₂⟩, hadd₂, rfl⟩ := map_eq_ok_iff.1 hlonger
  refine ⟨l, hload, hlife, hheld, ⟨l₁, hadd₁⟩, ⟨l₂, hadd₂, fun hheld₂ => ?_⟩,
    hvalid.not_keepsWords hopen hheld ?_ ?_⟩
  · obtain ⟨-, -, hins⟩ := insert_of_add hadd₂
    rcases ((hvalid.insert_ok hopen hins).holds_iff [2]).1 hheld₂ with hnew | ⟨-, hkept⟩
    · exact absurd hnew (by decide)
    · rw [hlast] at hkept
      exact hkept (by unfold Displaces; decide)
  · rw [hlast]
    decide
  · rw [hcount]
    decide

end WordGraph.Lexicon
