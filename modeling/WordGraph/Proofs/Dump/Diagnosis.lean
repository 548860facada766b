import WordGraph.Proofs.Dump.Refusal
import WordGraph.Proofs.Lexicon.Shape

/-!
# What loading tells

Loading comes to an end for all bytes. The reasons for which it refuses them are true of the graph that
the bytes describe, and bytes that it takes are just as long as they say: some less are truncated, and
some more are left over.

* `load_of_isPrefix`, `load_append` — bytes that are missing or left over
* `load_diagnosed` — what loading tells of any bytes
-/

namespace WordGraph.Lexicon

open Arena Dump

variable {σ : Type} [Symbol σ] [SymbolCode σ] {identity : Nat} {bs bs' : Bytes} {e : FormatError}
  {l : Lexicon σ}

/-- Bytes that are not read are not loaded. -/
theorem load_of_ofBytes_error
    (h : (Contents.ofBytes bs : Except FormatError (Contents σ)) = .error e) :
    (load identity bs : Run σ (Lexicon σ)).result = .error (.format e) := by
  unfold load
  rw [Run.result_bind, h]
  rfl

/-- Where bytes are missing at the end of what can be loaded, it is truncated. -/
theorem load_of_isPrefix (h : (load identity bs).result = .ok l) (hpre : bs' <+: bs)
    (hne : bs' ≠ bs) :
    (load identity bs' : Run σ (Lexicon σ)).result = .error (.format .truncated) := by
  obtain ⟨k, hk, -⟩ := exists_contents_of_load h
  exact load_of_ofBytes_error (Contents.ofBytes_of_isPrefix hk hpre hne)

/-- Where bytes are left over behind what can be loaded, their number is told. -/
theorem load_append (h : (load identity bs).result = .ok l) (hne : bs' ≠ []) :
    (load identity (bs ++ bs') : Run σ (Lexicon σ)).result =
      .error (.format (.trailingBytes bs'.length)) := by
  obtain ⟨k, hk, -⟩ := exists_contents_of_load h
  exact load_of_ofBytes_error (Contents.ofBytes_append hk hne)

/-- What loading bytes for a type of symbols comes to, and what it tells. -/
structure Diagnosed (σ : Type) [Symbol σ] [SymbolCode σ] (identity : Nat) (bs : Bytes) : Prop where
  /-- The bytes are loaded, or they are refused with a reason. -/
  ends : (∃ l : Lexicon σ, (load identity bs).result = .ok l) ∨
    ∃ e, (load identity bs : Run σ (Lexicon σ)).result = .error (.format e)
  /-- A reason that tells of the graph tells the truth about the one that the bytes describe. -/
  verdict : ∀ e, (load identity bs : Run σ (Lexicon σ)).result = .error (.format e) →
    e.isAboutGraph → ∃ (k : Contents σ) (a : Arena σ), Describes bs k a ∧ Verdict k a e
  truncated : ∀ l : Lexicon σ, (load identity bs).result = .ok l → ∀ bs', bs' <+: bs → bs' ≠ bs →
    (load identity bs' : Run σ (Lexicon σ)).result = .error (.format .truncated)
  trailingBytes : ∀ l : Lexicon σ, (load identity bs).result = .ok l → ∀ bs', bs' ≠ [] →
    (load identity (bs ++ bs') : Run σ (Lexicon σ)).result =
      .error (.format (.trailingBytes bs'.length))

/-- **Loading tells the truth.** For all bytes it ends, and the reasons for which it refuses them are
true; bytes that it takes are neither too few nor too many. -/
theorem load_diagnosed (identity : Nat) (bs : Bytes) : Diagnosed σ identity bs where
  ends := by
    cases h : (load identity bs : Run σ (Lexicon σ)).result with
    | ok l => exact .inl ⟨l, rfl⟩
    | error e =>
      have htrue := load_failsOnly identity bs e h
      cases e with
      | format e => exact .inr ⟨e, rfl⟩
      | _ => exact htrue.elim
  verdict e h habout := load_failsOnly identity bs (.format e) h habout
  truncated l h bs' hpre hne := load_of_isPrefix h hpre hne
  trailingBytes l h bs' hne := load_append h hne

/-- Two nodes with edges to each other are refused for the cycle. -/
example : (load 0 (Contents.bytes (σ := UInt8)
      ⟨.closed, 0, 0, [], [⟨false, 0⟩, ⟨true, 0⟩], [⟨0, 1, 1⟩, ⟨1, 1, 0⟩]⟩) :
    Run UInt8 (Lexicon UInt8)).result = .error (.format .cycle) := by cbv

end WordGraph.Lexicon
