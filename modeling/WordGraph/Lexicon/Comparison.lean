import WordGraph.Lexicon.Query
import WordGraph.Traversal.Search

/-!
# Comparing and hashing word by word

Two lexicons are compared by their numbers of words and by two searches, each of which is asked for one
word after the other until the words differ or one of the searches has none left. A hasher is fed the
number of words, and of each word its length and its symbols.

A comparison is a partial function, as the searches are.

* `Search.compareNext`, `Search.agree` — asking two searches for their words
* `Lexicon.compare` — comparing two lexicons
* `Lexicon.hashFeed` — what a hasher is fed
-/

namespace WordGraph

variable {σ : Type} [Symbol σ]

namespace Search

/-- Asks two searches for a word each. If both have the same one, the searches behind it are still to be
compared, else the answer is whether both have none. -/
def compareNext (a b : Arena σ) (p : Search σ × Search σ) :
    Part (Except Fault Bool ⊕ Search σ × Search σ) := do
  match ← p.1.nextWord a with
  | .error f => return .inl (.error f)
  | .ok (none, _) =>
    match ← p.2.nextWord b with
    | .error f => return .inl (.error f)
    | .ok (v, _) => return .inl (.ok v.isNone)
  | .ok (some w, t) =>
    match ← p.2.nextWord b with
    | .error f => return .inl (.error f)
    | .ok (none, _) => return .inl (.ok false)
    | .ok (some v, u) => return if w = v then .inr (t, u) else .inl (.ok false)

/-- Whether two searches on two graphs hand out the same words. -/
def agree (a b : Arena σ) : Search σ × Search σ →. Except Fault Bool := PFun.fix (compareNext a b)

/-- A search that hands out a list hands out its first word, and then the others. -/
theorem HandsOut.next {a : Arena σ} {t : Search σ} {ws : List (Word σ)} (h : t.HandsOut a ws) :
    ∃ t' : Search σ, .ok (ws.head?, t') ∈ t.nextWord a ∧ t'.HandsOut a ws.tail := by
  obtain ⟨call, rfl, hcall⟩ := h
  refine ⟨call 1, ?_, fun n => call (n + 1), rfl, fun n => ?_⟩
  · rw [List.head?_eq_getElem?]
    exact hcall 0
  · rw [List.getElem?_tail]
    exact hcall (n + 1)

/-- **A comparison of two searches comes to an answer** if they hand out lists: whether the lists are
the same. -/
theorem HandsOut.agree {a b : Arena σ} {t u : Search σ} {ws vs : List (Word σ)}
    (h : t.HandsOut a ws) (h' : u.HandsOut b vs) : .ok (ws = vs) ∈ agree a b (t, u) := by
  induction ws generalizing t u vs with
  | nil =>
    obtain ⟨t', ht, -⟩ := h.next
    obtain ⟨u', hu, -⟩ := h'.next
    refine PFun.fix_stop (Part.mem_bind ht (Part.mem_bind hu ?_))
    cases vs <;> exact Part.mem_some _
  | cons w ws ih =>
    obtain ⟨t', ht, hws⟩ := h.next
    obtain ⟨u', hu, hvs⟩ := h'.next
    cases vs with
    | nil => exact PFun.fix_stop (Part.mem_bind ht (Part.mem_bind hu (Part.mem_some _)))
    | cons v vs =>
      have hstep : (if w = v then .inr (t', u') else .inl (.ok false)) ∈ compareNext a b (t, u) :=
        Part.mem_bind ht (Part.mem_bind hu (Part.mem_some _))
      by_cases hwv : w = v
      · rw [if_pos hwv] at hstep
        simp only [List.cons.injEq, hwv, true_and]
        rw [Search.agree, PFun.fix_fwd_eq hstep]
        exact ih hws hvs
      · rw [if_neg hwv] at hstep
        simp only [List.cons.injEq, hwv, false_and, decide_false]
        exact PFun.fix_stop hstep

end Search

/-- A value that is fed to a hasher. -/
inductive HashItem (σ : Type) where
  | number (n : Nat)
  | symbol (c : σ)

namespace Lexicon

/-- Whether two lexicons hand out the same words. -/
def compare (l m : Lexicon σ) : Part (Except Fault Bool) :=
  if l.size = m.size then Search.agree l.arena m.arena (.all l.root, .all m.root)
  else .some (.ok false)

/-- What a hasher is fed: the number of words, and of each word the length and the symbols. -/
def hashFeed (l : Lexicon σ) : Except Fault (List (HashItem σ)) := do
  let (size, words) ← l.hashInput
  return .number size :: words.flatMap fun w => .number w.length :: w.map .symbol

end Lexicon

end WordGraph
