import Mathlib.Data.PFun
import WordGraph.Arena
import WordGraph.Pattern.Mask

/-!
# Searching with one buffer

A traversal keeps the whole word with each state that it has yet to visit. A search spells all words
in one buffer: a visit to come remembers how deep its state lies and the symbol of the edge that leads
to it, and when its turn comes, the buffer is cut back to where its way leaves that of the visit
before.

Nothing limits a search, so on a graph with a cycle it may go on for ever without a word to hand out.
`nextWord` is a partial function: it has no value where the search for a word has no end.

* `Search.all`, `Search.matching` — the search for all words, and for those that fit a mask
* `Search.turn` — one visit
* `Search.step` — what comes after it: an answer, or further visits
* `Search.nextWord` — visits up to the next word
* `Search.HandsOut` — what the calls of `nextWord` answer, one after the other
-/

namespace WordGraph

/-- A state to be visited. -/
structure Visit (σ : Type) where
  state : StateId
  /-- The number of symbols on the way to the state. -/
  depth : Nat
  /-- The last of them. The way to the start has none. -/
  symbol : Option σ

/-- A list of words of which some have been handed out. -/
structure Search (σ : Type) where
  /-- The visits to come, the next one in front. -/
  stack : List (Visit σ)
  /-- The word on the way to the state that was visited last. -/
  buffer : Word σ
  /-- What is asked of the words, if anything. -/
  mask : Option (Mask σ)

/-- What the buffer holds when the turn of a visit has come. -/
def Visit.spell {σ : Type} (v : Visit σ) (buffer : Word σ) : Word σ :=
  match v.symbol with
  | some c => buffer.take (v.depth - 1) ++ [c]
  | none => buffer

namespace Search

section

variable {σ : Type}

/-- The words accepted from a state. -/
def all (root : StateId) : Search σ := ⟨[⟨root, 0, none⟩], [], none⟩

/-- The words accepted from a state that fit a mask. -/
def matching (root : StateId) (m : Mask σ) : Search σ := { all root with mask := some m }

end

variable {σ : Type} [Symbol σ]

/-- Puts the target of an edge that leaves a state at a depth on the stack, if the edge is allowed. -/
def push (mask : Option (Mask σ)) (depth : Nat) (stack : List (Visit σ)) (e : σ × StateId) :
    List (Visit σ) :=
  if mask.all (·.allows depth e.1) then ⟨e.2, depth + 1, some e.1⟩ :: stack else stack

/-- Visits a state, and answers whether the word that has been spelled is to be handed out. The edges
are taken from the back, so that the first of them is visited next. -/
def turn (a : Arena σ) (t : Search σ) (v : Visit σ) (rest : List (Visit σ)) :
    Except Fault (Bool × Search σ) := do
  let buffer := v.spell t.buffer
  let x ← a.state v.state
  let stack := x.edges.edges.reverse.foldl (push t.mask v.depth) rest
  return (x.isFinal && t.mask.all (·.admits v.depth), { t with stack, buffer })

/-- What becomes of a search: an answer, which is a word or that there is none left, or further visits. -/
def step (a : Arena σ) (t : Search σ) : Except Fault (Option (Word σ) × Search σ) ⊕ Search σ :=
  match t.stack with
  | [] => .inl (.ok (none, t))
  | v :: rest =>
    match t.turn a v rest with
    | .error f => .inl (.error f)
    | .ok (true, t) => .inl (.ok (some t.buffer, t))
    | .ok (false, t) => .inr t

/-- Visits states up to one that ends a word to be handed out, and answers the word, or nothing if
there is no such state. -/
def nextWord (a : Arena σ) : Search σ →. Except Fault (Option (Word σ) × Search σ) :=
  PFun.fix fun t => Part.some (t.step a)

/-- A search that comes to an answer gives it. -/
theorem mem_nextWord_of_inl {a : Arena σ} {t : Search σ}
    {answer : Except Fault (Option (Word σ) × Search σ)} (h : t.step a = .inl answer) :
    answer ∈ t.nextWord a :=
  PFun.fix_stop (h ▸ Part.mem_some _)

/-- A search that goes on answers what it comes to then. -/
theorem nextWord_of_inr {a : Arena σ} {t t' : Search σ} (h : t.step a = .inr t') :
    t.nextWord a = t'.nextWord a :=
  PFun.fix_fwd_eq (h ▸ Part.mem_some _)

/-- However often a search is asked for a word, it comes to an answer: the words of a list one after
the other, and from then on nothing. -/
def HandsOut (a : Arena σ) (t : Search σ) (ws : List (Word σ)) : Prop :=
  ∃ call : Nat → Search σ, call 0 = t ∧
    ∀ n, .ok (ws[n]?, call (n + 1)) ∈ (call n).nextWord a

/-- What is handed out is the same list each time. -/
theorem HandsOut.unique {a : Arena σ} {t : Search σ} {ws vs : List (Word σ)} (h : t.HandsOut a ws)
    (h' : t.HandsOut a vs) : ws = vs := by
  obtain ⟨call, hzero, hcall⟩ := h
  obtain ⟨call', hzero', hcall'⟩ := h'
  have hstep : ∀ n, call n = call' n → ws[n]? = vs[n]? ∧ call (n + 1) = call' (n + 1) := by
    intro n hn
    have hnext := Part.mem_unique (hcall n) (hn ▸ hcall' n)
    simpa using hnext
  have hsame : ∀ n, call n = call' n := by
    intro n
    induction n with
    | zero => rw [hzero, hzero']
    | succ n ih => exact (hstep n ih).2
  exact List.ext_getElem?_iff.2 fun n => (hstep n (hsame n)).1

end Search

end WordGraph
