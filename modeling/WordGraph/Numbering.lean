import WordGraph.Arena.Postorder
import WordGraph.Total

/-!
# Numbering words

Every state accepts some number of words: one if words end at it, and those of its children. Given
these counts, the words accepted from a state are numbered from 1 in lexicographic order. The number
of a word is found in one walk, by adding up the counts of the edges passed over; the word with a
given number is found in one walk, by taking them off again.

A count is a number below 2^64. A graph that accepts more words from some state has no numbering.

A numbering belongs to the graph that it was computed from. It can be used on a graph that has
changed since; it then numbers nothing in particular, its sums may leave the range of counts, and a
search that runs in circles without taking off anything has no answer.
-/

namespace WordGraph

/-- How many counts there are, 2^64: a count is less. -/
def countLimit : Nat := 18446744073709551616

/-- The number of words accepted from each state. -/
structure Numbering where
  /-- The counts by slot, 0 for a slot that is not reached. -/
  counts : Array Nat
  /-- The number of states that were counted. -/
  states : Nat
  deriving DecidableEq, Repr

namespace Numbering

variable {σ : Type} [Symbol σ]

/-- The count of a slot, 0 beyond the last one. -/
def countAt (counts : Array Nat) (s : StateId) : Nat := (counts[s.slot]?).getD 0

/-- The number of words accepted from a state. -/
def count (n : Numbering) (s : StateId) : Nat := countAt n.counts s

/-- The number of words accepted from a state, by the counts of its children. -/
def countFrom (counts : Array Nat) (x : State σ) : Nat :=
  x.isFinal.toNat + total (countAt counts) x.edges.targets

/-- Counts the states of a list one after the other, as long as the counts stay in range. -/
def countAll (a : Arena σ) (counts : Array Nat) : List StateId → Except Fault (Option (Array Nat))
  | [] => .ok (some counts)
  | s :: order => do
    let n := countFrom counts (← a.state s)
    if n < countLimit then countAll a (counts.setIfInBounds s.slot n) order else return none

/-- Counts the words accepted from each state that can be reached from a state; nothing if a count
is out of range. -/
def compute (a : Arena σ) (root : StateId) : Except Fault (Option Numbering) := do
  let order := (← a.postorder root).order
  let counts ← countAll a (Array.replicate a.slotCount 0) order
  return counts.map fun counts => ⟨counts, order.length⟩

/-! ## The number of a word -/

/-- A sum of counts, which has to be a count. -/
def plus (n m : Nat) : Except Fault Nat :=
  if n + m < countLimit then .ok (n + m) else .error .countOverflow

theorem plus_eq_ok_iff {n m k : Nat} : plus n m = .ok k ↔ n + m = k ∧ n + m < countLimit := by
  unfold plus
  split
  · next h => simp [h]
  · next h => simp [h]

/-- The number of a word among those accepted from a state, `n` words having been passed over. -/
def rankFrom (num : Numbering) (a : Arena σ) (n : Nat) (s : StateId) :
    Word σ → Except Fault (Option Nat)
  | [] => do
    let x ← a.state s
    let n ← plus n 1
    return if x.isFinal then some n else none
  | c :: w => do
    let x ← a.state s
    let below := x.edges.edges.takeWhile fun e => e.1 < c
    let n ← if x.isFinal then plus n 1 else pure n
    let n ← below.foldlM (fun n e => plus n (num.count e.2)) n
    match x.edges.find? c with
    | some t => num.rankFrom a n t w
    | none => return none

/-- The number of a word among those accepted from a state; nothing if it is not one of them. -/
def rank (num : Numbering) (a : Arena σ) (root : StateId) (w : Word σ) :
    Except Fault (Option Nat) :=
  num.rankFrom a 0 root w

/-! ## The word with a number -/

/-- The edge below which the word with a number lies, and its number there. -/
def pick (num : Numbering) : List (σ × StateId) → Nat → Option ((σ × StateId) × Nat)
  | [], _ => none
  | e :: edges, n =>
    let m := num.count e.2
    if m < n then num.pick edges (n - m) else some (e, n)

/-- The word with a number among those accepted from a state, as an extension of the reversed word
`spelled`. It is at most `steps - 1` symbols away. -/
def unrankFrom (num : Numbering) (a : Arena σ) (spelled : List σ) (s : StateId) (n : Nat) :
    Nat → Except Fault (Option (Word σ))
  | 0 => .error .endless
  | steps + 1 => do
    let x ← a.state s
    if x.isFinal && n == 1 then return some spelled.reverse
    else
      match num.pick x.edges.edges (if x.isFinal then n - 1 else n) with
      | some ((c, t), n) => num.unrankFrom a (c :: spelled) t n steps
      | none => return none

/-- The word with a number among those accepted from a state; nothing if there is none.

The number never grows on the way, and the way to the word meets a state at most once for each value
of the number: from a second time on it would go round for ever. That bounds the steps. -/
def unrank (num : Numbering) (a : Arena σ) (root : StateId) (n : Nat) :
    Except Fault (Option (Word σ)) :=
  if n = 0 ∨ num.count root < n then .ok none
  else num.unrankFrom a [] root n (n * a.slotCount + 1)

end Numbering

end WordGraph
