import WordGraph.Lexicon.Cursor
import WordGraph.Lexicon.History

/-!
# Lexicons and cursors side by side

Cursors are kept while the lexicons that they are for, and any number of others, go on being used.
A session holds all of them: each lexicon and each cursor has its place for good, and a lexicon that
is made, from nothing, from a dump or as a clone, gets the next identity.

* `Lexicon.Operation` — one operation on a lexicon, and whether it changes the graph
* `Session` — lexicons and cursors in use
* `Session.Recorded` — how sessions come about, with a record for each cursor
-/

namespace WordGraph

variable {σ : Type} [Symbol σ]

/-- An operation makes a lexicon from another, and changes its graph or leaves it. A word changes the
graph if it is new or if some state of the path is settled for it. -/
inductive Lexicon.Operation : Lexicon σ → Bool → Lexicon σ → Prop
  | add {l l' : Lexicon σ} {w : Word σ} {isNew : Bool} (h : (l.add w).result = .ok (isNew, l')) :
      Operation l (isNew || w.commonPrefixLength l.automaton.lastWord < l.automaton.path.length) l'
  | addUnchecked {l l' : Lexicon σ} {w : Word σ} {isNew : Bool}
      (h : (l.addUnchecked w).result = .ok (isNew, l')) :
      Operation l (isNew || w.commonPrefixLength l.automaton.lastWord < l.automaton.path.length) l'
  | close {l l' : Lexicon σ} (h : l.close.result = .ok l') : Operation l (l.lifecycle ≠ .closed) l'
  | clear {l l' : Lexicon σ} (h : l.clear.result = .ok l') : Operation l true l'
  /-- Being asked for the number of a word, or for anything else that needs the numbering. -/
  | numbering {l l' : Lexicon σ} {n : Numbering} (h : l.numbering.result = .ok (n, l')) :
      Operation l false l'

/-- Lexicons and cursors in use, each at the place at which it was made. -/
structure Session (σ : Type) [Symbol σ] where
  lexicons : List (Lexicon σ)
  cursors : List (Cursor σ)
  /-- The identity of the next lexicon. -/
  nextIdentity : Nat

namespace Session

/-- The session with one lexicon more, which has taken the next identity. -/
def withLexicon (S : Session σ) (l : Lexicon σ) : Session σ :=
  { S with lexicons := S.lexicons ++ [l], nextIdentity := S.nextIdentity + 1 }

/-- Advances the cursor at place `c` on the lexicon at place `d`. A cursor that is refused stays where
it is. -/
def advance (S : Session σ) (c d : Nat) :
    Option (Except (Error σ) (Option (Word σ)) × Session σ) := do
  let k ← S.cursors[c]?
  let l ← S.lexicons[d]?
  match k.advance l with
  | .ok (w, k) => return (.ok w, { S with cursors := S.cursors.set c k })
  | .error e => return (.error e, S)

/-- What is remembered of a cursor: the place of the lexicon for which it was made, the pattern, how
often it has gone on, and whether the lexicon has changed since the cursor was made. -/
structure Record (σ : Type) where
  source : Nat
  pattern : Pattern σ
  steps : Nat
  changed : Bool

/-- The record after the lexicon at place `d` has changed, or been left. -/
def Record.note (r : Record σ) (d : Nat) (changes : Bool) : Record σ :=
  if r.source = d then { r with changed := r.changed || changes } else r

/-- The record after the cursor has gone on once. -/
def Record.step (r : Record σ) : Record σ := { r with steps := r.steps + 1 }

/-- Operations lead to a session, and to a record for each of its cursors. -/
inductive Recorded : Session σ → List (Record σ) → Prop
  | start (identity : Nat) : Recorded ⟨[], [], identity⟩ []
  | new {S : Session σ} {rs : List (Record σ)} (h : Recorded S rs) :
      Recorded (S.withLexicon (.new S.nextIdentity)) rs
  | load [SymbolCode σ] {S : Session σ} {rs : List (Record σ)} {bs : Bytes} {l : Lexicon σ}
      (h : Recorded S rs) (h' : (Lexicon.load S.nextIdentity bs).result = .ok l) :
      Recorded (S.withLexicon l) rs
  | clone {S : Session σ} {rs : List (Record σ)} {d : Nat} {l : Lexicon σ} (h : Recorded S rs)
      (hl : S.lexicons[d]? = some l) : Recorded (S.withLexicon (l.clone S.nextIdentity)) rs
  /-- Identities are also taken by lexicons over other symbols. -/
  | elsewhere {S : Session σ} {rs : List (Record σ)} (h : Recorded S rs) (n : Nat) :
      Recorded { S with nextIdentity := S.nextIdentity + n } rs
  | operation {S : Session σ} {rs : List (Record σ)} {d : Nat} {l l' : Lexicon σ} {changes : Bool}
      (h : Recorded S rs) (hl : S.lexicons[d]? = some l) (h' : l.Operation changes l') :
      Recorded { S with lexicons := S.lexicons.set d l' } (rs.map fun r => r.note d changes)
  | cursor {S : Session σ} {rs : List (Record σ)} {d : Nat} {l : Lexicon σ} (h : Recorded S rs)
      (hl : S.lexicons[d]? = some l) (p : Pattern σ) :
      Recorded { S with cursors := S.cursors ++ [l.cursor p] } (rs ++ [⟨d, p, 0, false⟩])
  | copy {S : Session σ} {rs : List (Record σ)} {c : Nat} {k : Cursor σ} {r : Record σ}
      (h : Recorded S rs) (hk : S.cursors[c]? = some k) (hr : rs[c]? = some r) :
      Recorded { S with cursors := S.cursors ++ [k] } (rs ++ [r])
  | advance {S S' : Session σ} {rs : List (Record σ)} {c d : Nat} {w : Option (Word σ)}
      (h : Recorded S rs) (h' : S.advance c d = some (.ok w, S')) :
      Recorded S' (rs.modify c Record.step)

end Session

end WordGraph
