import WordGraph.Proofs.Lexicon.Shape

/-!
# What is remembered beside a lexicon

A lexicon does not hold all that has happened to it. A ghost is a value that goes along with a lexicon
from its start and is told of every dump that is loaded, every word that is added and every clearing,
so that claims about the past can be made at all.

* `Ghost` — such a value
* `Traced` — how lexicons come about, each with the value of a ghost
* `Traced.reachable`, `Reachable.exists_traced` — a ghost is no obstacle
* `Traced.invariant` — what loading and each operation establish holds at any time
* `lastWord`, `insertions` — the ghosts in use
-/

namespace WordGraph

variable {σ γ : Type} [Symbol σ]

/-- A value that goes along with a lexicon. -/
structure Ghost (σ γ : Type) where
  /-- The value of a lexicon that is new or has been cleared. -/
  start : γ
  /-- The value of a lexicon that was loaded. -/
  load : Dump.Contents σ → γ
  /-- The value after a word was added, new or not. -/
  add : γ → Word σ → γ

namespace Ghost

/-- The word that was added last, as far as a dump has it. It is empty if there was none. -/
def lastWord : Ghost σ (Word σ) := ⟨[], fun k => k.frontier, fun _ w => w⟩

/-- The number of words that were loaded and of words that were added, new or not. -/
def insertions : Ghost σ Nat := ⟨0, fun k => k.words, fun n _ => n + 1⟩

end Ghost

namespace Lexicon

open Automaton

variable {l l' : Lexicon σ} {g : Ghost σ γ} {x : γ}

/-- Operations lead to a lexicon, and to the value `x` of a ghost. -/
inductive Traced (g : Ghost σ γ) : Lexicon σ → γ → Prop
  | new (identity : Nat) : Traced g (.new identity) g.start
  | load [SymbolCode σ] {identity : Nat} {bs : Bytes} {k : Dump.Contents σ} {l : Lexicon σ}
      (hk : Dump.Contents.ofBytes bs = .ok k) (h : (load identity bs).result = .ok l) :
      Traced g l (g.load k)
  | add {l l' : Lexicon σ} {x : γ} {w : Word σ} {isNew : Bool} (h : Traced g l x)
      (h' : (l.add w).result = .ok (isNew, l')) : Traced g l' (g.add x w)
  | addUnchecked {l l' : Lexicon σ} {x : γ} {w : Word σ} {isNew : Bool} (h : Traced g l x)
      (h' : (l.addUnchecked w).result = .ok (isNew, l')) : Traced g l' (g.add x w)
  | close {l l' : Lexicon σ} {x : γ} (h : Traced g l x) (h' : l.close.result = .ok l') :
      Traced g l' x
  | clear {l l' : Lexicon σ} {x : γ} (h : Traced g l x) (h' : l.clear.result = .ok l') :
      Traced g l' g.start
  | numbering {l l' : Lexicon σ} {x : γ} {n : Numbering} (h : Traced g l x)
      (h' : l.numbering.result = .ok (n, l')) : Traced g l' x
  | clone {l : Lexicon σ} {x : γ} (h : Traced g l x) (identity : Nat) :
      Traced g (l.clone identity) x

theorem Traced.reachable (h : Traced g l x) : Reachable l := by
  induction h with
  | new identity => exact .new identity
  | load _ h => exact .load h
  | add _ h' ih => exact .step ih (.add h')
  | addUnchecked _ h' ih => exact .step ih (.addUnchecked h')
  | close _ h' ih => exact .step ih (.close h')
  | clear _ h' ih => exact .step ih (.clear h')
  | numbering _ h' ih => exact .step ih (.numbering h')
  | clone _ identity ih => exact .step ih (.clone _ identity)

/-- Whatever has led to a lexicon has led to some value of a ghost. -/
theorem Reachable.exists_traced (g : Ghost σ γ) (h : Reachable l) : ∃ x, Traced g l x := by
  induction h with
  | new identity => exact ⟨_, .new identity⟩
  | load h =>
    obtain ⟨k, hk, -⟩ := exists_contents_of_load h
    exact ⟨_, .load hk h⟩
  | step _ hs ih =>
    obtain ⟨x, hx⟩ := ih
    cases hs with
    | add h' => exact ⟨_, .add hx h'⟩
    | addUnchecked h' => exact ⟨_, .addUnchecked hx h'⟩
    | close h' => exact ⟨x, .close hx h'⟩
    | clear h' => exact ⟨_, .clear hx h'⟩
    | numbering h' => exact ⟨x, .numbering hx h'⟩
    | clone identity => exact ⟨x, .clone hx identity⟩

/-- What holds of a lexicon and the value of a ghost at the start, after loading, and after each
operation if it held before, holds at any time. What adding, closing and clearing do is given by their
specifications; other operations leave the automaton, the number of words and the life as they are. -/
theorem Traced.invariant {I : Lexicon σ → γ → Prop}
    (start : ∀ l, l.Valid → l.automaton = .initial → I l g.start)
    (load : ∀ identity (k : Dump.Contents σ) l, k.WellFormed →
      (ofContents identity k).result = .ok l → I l (g.load k))
    (add : ∀ l x w isNew l', l.Valid → I l x → Inserted l w isNew l' → I l' (g.add x w))
    (close : ∀ l x l', l.Valid → I l x → Shut l l' → I l' x)
    (keep : ∀ l x l', I l x → l'.automaton = l.automaton → l'.size = l.size →
      l'.lifecycle = l.lifecycle → I l' x)
    (h : Traced g l x) : I l x := by
  induction h with
  | new identity => exact start _ (.new identity) rfl
  | load hk h =>
    obtain ⟨k', hk', hwf, -, hload⟩ := exists_contents_of_load h
    rw [hk] at hk'
    cases hk'
    exact load _ _ _ hwf hload
  | add h h' ih =>
    obtain ⟨hl, -, hins⟩ := insert_of_add h'
    exact add _ _ _ _ _ h.reachable.valid ih (h.reachable.valid.insert_ok hl hins)
  | addUnchecked h h' ih =>
    obtain ⟨hl, hins⟩ := insert_of_addUnchecked h'
    exact add _ _ _ _ _ h.reachable.valid ih (h.reachable.valid.insert_ok hl hins)
  | close h h' ih =>
    obtain ⟨l₁, hrun, hshut⟩ := h.reachable.valid.close_spec
    rw [hrun] at h'
    cases h'
    exact close _ _ _ h.reachable.valid ih hshut
  | @clear l l' x h h' =>
    obtain ⟨l₁, hrun, hvalid, hauto, -⟩ := clear_spec l
    rw [hrun] at h'
    cases h'
    exact start _ hvalid hauto
  | numbering h h' ih =>
    obtain ⟨n, hrun, -⟩ := h.reachable.valid.numbering_spec
    rw [hrun] at h'
    cases h'
    exact keep _ _ _ ih rfl rfl rfl
  | clone _ identity ih => exact keep _ _ _ ih rfl rfl rfl

end Lexicon

end WordGraph
