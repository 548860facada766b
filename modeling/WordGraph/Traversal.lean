import WordGraph.Arena
import WordGraph.Pattern
import WordGraph.Total

/-!
# Listing words

A traversal hands out the words accepted from a state that fit a pattern, one at a time and in
lexicographic order. It is plain data and refers to no graph: each step is given the graph, which is
meant to be the one that the traversal was started on, unchanged.

A traversal is a stack of frames. A frame stands for a state to be visited and remembers the word
spelled on the way to it and the places of the pattern left over. Visiting it puts its children on
the stack, so that the words below the first of them come next, and then reports the word that ends
there.

## Termination

A path that goes on behind the last place of the pattern for as many steps as there are slots meets
some state twice, and then there is no end of words to try. A frame therefore carries the number of
steps that it still has; a visit that needs one more is a fault. `unfolding` bounds the number of
frames that can come out of one frame by the number of paths from its state with as many steps. Each
visit takes one off the sum of these bounds over the stack.
-/

namespace WordGraph

/-- A state to be visited. -/
structure Frame (σ : Type) where
  state : StateId
  /-- The word spelled on the way, last symbol first. -/
  spelled : List σ
  /-- The places of the pattern that are left over. -/
  places : List (Option σ)
  /-- The number of steps that may follow. -/
  room : Nat
  deriving Repr

/-- A list of words of which some have been handed out. -/
structure Traversal (σ : Type) where
  policy : LengthPolicy
  /-- The states to be visited, the next one in front. -/
  stack : List (Frame σ)
  deriving Repr

variable {σ : Type} [Symbol σ]

/-- One more than the number of non-empty paths from a state with at most so many steps. -/
def Arena.unfolding (a : Arena σ) : Nat → StateId → Nat
  | 0, _ => 1
  | n + 1, s =>
    match a.get? s with
    | some x => 1 + total (fun e => a.unfolding n e.2) x.edges.edges
    | none => 1

namespace Frame

/-- The bound on the frames that come out of a frame, itself included. -/
def weight (a : Arena σ) (f : Frame σ) : Nat := a.unfolding f.room f.state

theorem weight_pos (a : Arena σ) (f : Frame σ) : 0 < f.weight a := by
  unfold weight
  generalize f.room = n
  cases n with
  | zero => exact Nat.one_pos
  | succ n =>
    rw [Arena.unfolding]
    split <;> omega

/-- The frame of a child. -/
def child (f : Frame σ) (room : Nat) (e : σ × StateId) : Frame σ :=
  ⟨e.2, e.1 :: f.spelled, f.places.tail, room⟩

/-- The edges that the pattern allows. -/
def allowed (policy : LengthPolicy) (x : State σ) (f : Frame σ) : List (σ × StateId) :=
  x.edges.edges.filter fun e => Pattern.allows policy f.places e.1

/-- The frames of the children along the edges that the pattern allows. -/
def children (policy : LengthPolicy) (x : State σ) (f : Frame σ) : Except Fault (List (Frame σ)) :=
  match f.room with
  -- no room is left: a child would lie behind a cycle
  | 0 => if (f.allowed policy x).isEmpty then .ok [] else .error .endless
  | room + 1 => .ok ((f.allowed policy x).map (f.child room))

theorem total_weight_children_lt {a : Arena σ} {policy : LengthPolicy} {x : State σ} {f : Frame σ}
    {fs : List (Frame σ)} (hx : a.get? f.state = some x) (h : f.children policy x = .ok fs) :
    total (weight a) fs < f.weight a := by
  unfold children at h
  split at h
  · split at h
    · cases h
      exact f.weight_pos a
    · cases h
  · next room hroom =>
    cases h
    have hw : f.weight a = 1 + total (fun e => a.unfolding room e.2) x.edges.edges := by
      rw [weight, hroom, Arena.unfolding, hx]
    have hle : total (fun e => (f.child room e).weight a) (f.allowed policy x) ≤
        total (fun e => a.unfolding room e.2) x.edges.edges := total_filter_le _ _ _
    rw [hw, total_map]
    omega

end Frame

namespace Traversal

/-- The words accepted from a state that fit a pattern. -/
def start (a : Arena σ) (root : StateId) (p : Pattern σ) : Traversal σ :=
  ⟨p.policy, [⟨root, [], p.places, p.places.length + a.slotCount⟩]⟩

/-- The bound on the visits to come. -/
def weight (a : Arena σ) (stack : List (Frame σ)) : Nat :=
  total (Frame.weight a) stack

/-- Visits the states on a stack up to one that ends a word to be handed out, and answers the word
and the states that are left. -/
def nextWord (a : Arena σ) (policy : LengthPolicy) :
    List (Frame σ) → Except Fault (Option (Word σ × List (Frame σ)))
  | [] => .ok none
  | f :: stack =>
    match _hx : a.get? f.state with
    | none => .error .deletedSlot
    | some x =>
      match _hfs : f.children policy x with
      | .error e => .error e
      | .ok fs =>
        if x.isFinal && Pattern.endsAt policy f.places then
          .ok (some (f.spelled.reverse, fs ++ stack))
        else nextWord a policy (fs ++ stack)
termination_by stack => weight a stack
decreasing_by
  have := Frame.total_weight_children_lt _hx _hfs
  simp only [weight, total_append, total_cons]
  omega

/-- Handing out a word takes something off the visits to come. -/
theorem weight_lt_of_nextWord {a : Arena σ} {policy : LengthPolicy} {stack rest : List (Frame σ)}
    {w : Word σ} (h : nextWord a policy stack = .ok (some (w, rest))) :
    weight a rest < weight a stack := by
  fun_induction nextWord a policy stack with
  | case1 => cases h
  | case2 => cases h
  | case3 => cases h
  | case4 f stack x hx fs hfs _ =>
    cases h
    have := Frame.total_weight_children_lt hx hfs
    simp only [weight, total_append, total_cons]
    omega
  | case5 f stack x hx fs hfs _ ih =>
    have := Frame.total_weight_children_lt hx hfs
    have := ih h
    simp only [weight, total_append, total_cons] at this ⊢
    omega

/-- The next word, and what follows it; nothing after the last word. -/
def next (a : Arena σ) (t : Traversal σ) : Except Fault (Option (Word σ × Traversal σ)) := do
  match ← nextWord a t.policy t.stack with
  | some (w, stack) => return some (w, { t with stack })
  | none => return none

/-- The words that are still to come, behind the reversed list `done`. -/
def wordsFrom (a : Arena σ) (policy : LengthPolicy) (done : List (Word σ))
    (stack : List (Frame σ)) : Except Fault (List (Word σ)) :=
  match _h : nextWord a policy stack with
  | .error f => .error f
  | .ok none => .ok done.reverse
  | .ok (some (w, rest)) => wordsFrom a policy (w :: done) rest
termination_by weight a stack
decreasing_by exact weight_lt_of_nextWord _h

/-- The words that are still to come. -/
def words (a : Arena σ) (t : Traversal σ) : Except Fault (List (Word σ)) :=
  wordsFrom a t.policy [] t.stack

/-- Hands out at most so many words, behind the reversed list `done`. -/
def takeFrom (a : Arena σ) (t : Traversal σ) (done : List (Word σ)) :
    Nat → Except Fault (List (Word σ) × Traversal σ)
  | 0 => .ok (done.reverse, t)
  | n + 1 => do
    match ← t.next a with
    | some (w, t) => t.takeFrom a (w :: done) n
    | none => return (done.reverse, ⟨t.policy, []⟩)

/-- Hands out at most so many words, and answers what follows them. -/
def take (a : Arena σ) (t : Traversal σ) (n : Nat) :
    Except Fault (List (Word σ) × Traversal σ) :=
  t.takeFrom a [] n

/-- Whether two traversals of two graphs have the same words to come. It looks no further than the
first difference. -/
def agree (a b : Arena σ) (p q : LengthPolicy) (s t : List (Frame σ)) : Except Fault Bool :=
  match _h : nextWord a p s with
  | .error f => .error f
  | .ok none => do return (← nextWord b q t).isNone
  | .ok (some (w, s')) => do
    match ← nextWord b q t with
    | none => return false
    | some (v, t') => if w = v then agree a b p q s' t' else return false
termination_by weight a s
decreasing_by exact weight_lt_of_nextWord _h

end Traversal

end WordGraph
