import WordGraph.Pattern

/-!
# Masks

A mask is a word in which one symbol, the wildcard, stands for any. It is compared with words symbol
by symbol; its wildcard may be a letter of the words as well, and need not occur in the mask.

A mask can be asked about a place and a symbol without the rest of the word (`allows`), and about a
length (`admits`), which is all that a search for the words that fit it needs.

* `Mask.Fits` — which words fit a mask
* `Mask.pattern` — the pattern of a mask
* `accepts_pattern_iff` — the words that fit the one are those that fit the other
* `allows_drop`, `endsAt_drop` — so do the answers for a single place
-/

namespace WordGraph

/-- A word in which one symbol stands for any, and how the length of a word compares with its own. -/
structure Mask (σ : Type) where
  symbols : Word σ
  /-- The symbol that stands for any. -/
  wildcard : σ
  policy : LengthPolicy

namespace Mask

variable {σ : Type} {m : Mask σ} {n : Nat} {c : σ} {w : Word σ}

/-- Whether a word of so many symbols has a length as asked for. -/
def admits (m : Mask σ) (length : Nat) : Bool :=
  match m.policy with
  | .exact => length = m.symbols.length
  | .atMost => length ≤ m.symbols.length
  | .atLeast => m.symbols.length ≤ length

/-- A word fits a mask if it has the symbol of the mask wherever both have one and the mask does not
have its wildcard, and if its length is as asked for. -/
def Fits (m : Mask σ) (w : Word σ) : Prop :=
  (∀ i (h : i < m.symbols.length) (h' : i < w.length),
    m.symbols[i] = m.wildcard ∨ m.symbols[i] = w[i]) ∧
  match m.policy with
  | .exact => w.length = m.symbols.length
  | .atMost => w.length ≤ m.symbols.length
  | .atLeast => m.symbols.length ≤ w.length

/-- The length that `Fits` asks for is the one that `admits` tells. -/
theorem fits_iff : m.Fits w ↔
    (∀ i (h : i < m.symbols.length) (h' : i < w.length),
      m.symbols[i] = m.wildcard ∨ m.symbols[i] = w[i]) ∧ m.admits w.length := by
  unfold Fits admits
  cases m.policy <;> simp

variable [Symbol σ]

/-- Whether a word may have a symbol behind its first `n` symbols. -/
def allows (m : Mask σ) (n : Nat) (c : σ) : Bool :=
  match m.symbols[n]? with
  | some d => d = m.wildcard || d = c
  | none => m.policy == .atLeast

instance (m : Mask σ) (w : Word σ) : Decidable (m.Fits w) :=
  have : Decidable (∀ i (h : i < m.symbols.length) (h' : i < w.length),
      m.symbols[i] = m.wildcard ∨ m.symbols[i] = w[i]) := inferInstance
  decidable_of_iff' _ fits_iff

/-- The pattern of a mask. -/
def pattern (m : Mask σ) : Pattern σ := .ofWord m.symbols m.wildcard m.policy

@[simp] theorem length_places_pattern (m : Mask σ) :
    m.pattern.places.length = m.symbols.length :=
  List.length_map _

/-- A place of the pattern asks for what the mask has there. -/
theorem getElem?_places_pattern (m : Mask σ) (n : Nat) :
    m.pattern.places[n]? =
      m.symbols[n]?.map fun d => if d = m.wildcard then none else some d :=
  List.getElem?_map

/-! ## The answers for a place -/

/-- The pattern allows a symbol at a place just if the mask does. -/
theorem allows_drop (m : Mask σ) (n : Nat) (c : σ) :
    Pattern.allows m.policy (m.pattern.places.drop n) c = m.allows n c := by
  have hget := m.getElem?_places_pattern n
  unfold allows
  cases hd : m.symbols[n]? with
  | none =>
    rw [List.drop_eq_nil_of_le (by simpa using List.getElem?_eq_none_iff.1 hd)]
    rfl
  | some d =>
    rw [hd, Option.map_some] at hget
    obtain ⟨hlt, hget⟩ := List.getElem?_eq_some_iff.1 hget
    rw [List.drop_eq_getElem_cons hlt, hget]
    by_cases hw : d = m.wildcard <;> simp [hw, Pattern.allows]

/-- A word may end at a place of the pattern just if the mask admits its length, unless the word has
got too long before. -/
theorem endsAt_drop (h : m.policy ≠ .atLeast → n ≤ m.symbols.length) :
    Pattern.endsAt m.policy (m.pattern.places.drop n) = m.admits n := by
  unfold admits Pattern.endsAt
  rw [Bool.eq_iff_iff]
  cases hp : m.policy with
  | exact =>
    have hle := h (by rw [hp]; decide)
    simp only [List.isEmpty_iff, List.drop_eq_nil_iff, length_places_pattern, Bool.or_eq_true,
      decide_eq_true_eq]
    constructor
    · rintro (h | h)
      · cases h
      · omega
    · exact fun h => .inr (by omega)
  | atMost => simpa using h (by rw [hp]; decide)
  | atLeast =>
    simp only [List.isEmpty_iff, List.drop_eq_nil_iff, length_places_pattern, Bool.or_eq_true,
      decide_eq_true_eq]
    exact or_iff_right (by decide)

/-- Where the mask has a limit, a symbol that is allowed lies within it. -/
theorem lt_of_allows (h : m.allows n c) (hp : m.policy ≠ .atLeast) : n < m.symbols.length := by
  unfold allows at h
  split at h
  · next hd => exact (List.getElem?_eq_some_iff.1 hd).1
  · exact absurd (eq_of_beq h) hp

/-! ## The words that fit -/

/-- The mask without its first symbol. -/
def tail (m : Mask σ) : Mask σ := { m with symbols := m.symbols.tail }

/-- A longer word fits if its first symbol is allowed and the others fit the rest of the mask. -/
theorem fits_cons_iff : m.Fits (c :: w) ↔ m.allows 0 c ∧ m.tail.Fits w := by
  obtain ⟨symbols, wildcard, policy⟩ := m
  simp only [fits_iff, allows, tail]
  cases symbols with
  | nil => cases policy <;> simp [admits]
  | cons d ds =>
    have hlength : admits ⟨d :: ds, wildcard, policy⟩ (c :: w).length =
        admits ⟨ds, wildcard, policy⟩ w.length := by
      cases policy <;> simp [admits]
    have hsymbols : (∀ i (h : i < (d :: ds).length) (h' : i < (c :: w).length),
        (d :: ds)[i] = wildcard ∨ (d :: ds)[i] = (c :: w)[i]) ↔
          (d = wildcard ∨ d = c) ∧ ∀ i (h : i < ds.length) (h' : i < w.length),
            ds[i] = wildcard ∨ ds[i] = w[i] := by
      constructor
      · intro h
        refine ⟨h 0 (by simp) (by simp), fun i hi hi' => ?_⟩
        exact h (i + 1) (Nat.succ_lt_succ hi) (Nat.succ_lt_succ hi')
      · rintro ⟨hzero, hsucc⟩ i hi hi'
        cases i with
        | zero => exact hzero
        | succ i => exact hsucc i (Nat.lt_of_succ_lt_succ hi) (Nat.lt_of_succ_lt_succ hi')
    simp only [hlength, hsymbols, List.tail_cons, List.getElem?_cons_zero, Bool.or_eq_true,
      decide_eq_true_eq, and_assoc]

/-- **The words that fit a mask are those that fit its pattern.** -/
theorem accepts_pattern_iff : m.pattern.accepts w ↔ m.Fits w := by
  show Pattern.fits m.policy m.pattern.places w ↔ _
  induction w generalizing m with
  | nil =>
    have hend : Pattern.endsAt m.policy m.pattern.places = m.admits 0 :=
      endsAt_drop (n := 0) fun _ => Nat.zero_le _
    rw [Pattern.fits, hend, fits_iff]
    simp
  | cons c w ih =>
    have hfirst : Pattern.allows m.policy m.pattern.places c = m.allows 0 c := m.allows_drop 0 c
    have htail : m.pattern.places.tail = m.tail.pattern.places := List.map_tail.symm
    rw [Pattern.fits, hfirst, htail, fits_cons_iff, Bool.and_eq_true]
    exact and_congr_right fun _ => ih (m := m.tail)

/-- Both leave the same words of a list. -/
theorem filter_accepts_pattern (m : Mask σ) (ws : List (Word σ)) :
    ws.filter m.pattern.accepts = ws.filter fun w => m.Fits w :=
  List.filter_congr fun _ _ => Bool.eq_iff_iff.2 (accepts_pattern_iff.trans decide_eq_true_iff.symm)

end Mask

end WordGraph
