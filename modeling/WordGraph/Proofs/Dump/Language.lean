import WordGraph.Proofs.Dump.Canonical
import WordGraph.Proofs.Lexicon.Grown

/-!
# What can be loaded

Loading takes just the dumps of lexicons that can come about. Whatever passes the checks is the dump of
a lexicon that adding words, closing and clearing lead to, if its states can be told apart by any
number: the states of a word are made before any of them is merged, which can take more slots than the
finished lexicon.

* `dumpable_of_load` — what is loaded can be dumped again
* `exists_grown_of_load` — it could have been dumped without any load
* `exists_load_iff` — the bytes that can be loaded
-/

namespace WordGraph.Lexicon

open Dump

variable {σ : Type} [Symbol σ] [SymbolCode σ] {l : Lexicon σ} {identity : Nat} {bs : Bytes}

/-- What is loaded can be dumped again. -/
theorem dumpable_of_load (h : (load identity bs).result = .ok l) : l.Dumpable := by
  obtain ⟨k, -, hk, -, hl⟩ := exists_contents_of_load h
  obtain ⟨states, n, hs, -⟩ := (valid_of_load h).contents_spec
  rw [(valid_of_load h).dumpable_iff hs, contentsOf_of_ofContents hk hl hs]
  exact ⟨hk.header.nodes, hk.header.edges⟩

/-- Without a limit, a lexicon with the same dump as a loaded one comes about from nothing. -/
theorem exists_grown_of_load (h : (load identity bs).result = .ok l) :
    ∃ k m : Lexicon σ, Grown none k ∧ k.Dumpable ∧ k.dump.result = .ok (bs, m) := by
  obtain ⟨k, hgrown, halike⟩ := (valid_of_load h).exists_grown
  obtain ⟨contents, -, hwf, rfl, hl⟩ := exists_contents_of_load h
  obtain ⟨m, hdump⟩ := dump_of_ofContents hwf hl
  have hsame := halike.agree.dump_eq
  rw [hdump] at hsame
  obtain ⟨⟨bs', m'⟩, hdump', rfl⟩ := map_eq_ok_iff.1 hsame.symm
  exact ⟨k, m', hgrown, halike.dumpable (dumpable_of_load h), hdump'⟩

/-- **Loading takes just the dumps of lexicons that come about from nothing** by adding words, in order
or not, closing and clearing. -/
theorem exists_load_iff (identity : Nat) (bs : Bytes) :
    (∃ l : Lexicon σ, (load identity bs).result = .ok l) ↔
      ∃ l m : Lexicon σ, Grown none l ∧ l.Dumpable ∧ l.dump.result = .ok (bs, m) := by
  constructor
  · rintro ⟨l, h⟩
    exact exists_grown_of_load h
  · rintro ⟨l, m, hgrown, hd, hdump⟩
    obtain ⟨bs', n, k, hdump', -, hload, -⟩ :=
      hgrown.valid.exists_load hd.states hd.edges identity
    rw [hdump] at hdump'
    cases hdump'
    exact ⟨k, hload⟩

end WordGraph.Lexicon
