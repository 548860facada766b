import WordGraph.Automaton

/-!
# Growing with assertions

An automaton keeps the path of the last word apart from the start state and settles a part of it at
once. A builder keeps both on one stack, takes states off it one at a time, and asserts before each
move what the move relies on.

* `Breach` — an assertion that fails
* `Builder.settle`, `Builder.settleSuffix` — settling, one state after the other
* `Builder.add`, `Builder.close` — adding a word and closing
* `Builder.ofAutomaton` — the builder of an automaton
-/

namespace WordGraph

/-- An assertion that fails. -/
inductive Breach where
  /-- The arena or the register is asked for what it cannot do. -/
  | fault (f : Fault)
  /-- More states are to be kept on the stack than there are. -/
  | shortStack
  /-- A state is looked for on the empty stack. -/
  | emptyStack
  /-- The start state is taken off the stack. -/
  | startTaken
  /-- A slot that holds no state is to be freed. -/
  | deadDeletion
  deriving DecidableEq, Repr

instance : MonadLift (Except Fault) (Except Breach) := ⟨Except.mapError .fault⟩

/-- The states on the path of the last word, the last one first, each with the symbol that leads to
it. The start state, at the bottom, has none. -/
abbrev PathStack (σ : Type) : Type := List (Option σ × StateId)

/-- What an automaton grows in. -/
structure Builder (σ : Type) [Symbol σ] where
  arena : Arena σ
  register : Register σ
  stack : PathStack σ

namespace Builder

variable {σ : Type} [Symbol σ]

/-- The state at the end of the path. -/
def endState (stack : PathStack σ) : Except Breach StateId :=
  match stack with
  | [] => .error .emptyStack
  | e :: _ => .ok e.2

/-- Takes the state at the end of the path off the stack. -/
def pop (stack : PathStack σ) : Except Breach ((σ × StateId) × PathStack σ) :=
  match stack with
  | [] => .error .emptyStack
  | (none, _) :: _ => .error .startTaken
  | (some c, s) :: rest => .ok ((c, s), rest)

/-- Frees the slot of a state. -/
def delete (a : Arena σ) (s : StateId) : Except Breach (Arena σ) :=
  if a.isLive s then .ok (a.delete s) else .error .deadDeletion

/-- The word that was added last. -/
def lastWord (b : Builder σ) : Word σ := b.stack.reverse.filterMap Prod.fst

/-! ## Settling -/

/-- Settles the state at the end of the path. -/
def settleEnd (b : Builder σ) : Except Breach (Builder σ) := do
  let ((c, s), stack) ← pop b.stack
  match ← b.register.find? b.arena s with
  | some t =>
    let parent ← endState stack
    let (_, arena) ← b.arena.setEdge parent c t
    return { b with arena := ← delete arena s, stack }
  | none =>
    let (_, register) ← b.register.insert b.arena s
    return { b with register, stack }

omit [Symbol σ] in
theorem length_of_pop {stack rest : PathStack σ} {e : σ × StateId} (h : pop stack = .ok (e, rest)) :
    stack.length = rest.length + 1 := by
  unfold pop at h
  split at h
  · cases h
  · cases h
  · cases h
    rfl

/-- A state that is settled is off the stack. -/
theorem length_of_settleEnd {b b' : Builder σ} (h : b.settleEnd = .ok b') :
    b.stack.length = b'.stack.length + 1 := by
  unfold settleEnd at h
  cases hp : pop b.stack with
  | error e =>
    rw [hp] at h
    cases h
  | ok popped =>
    obtain ⟨⟨c, s⟩, rest⟩ := popped
    have hstack : b'.stack = rest := by
      rw [hp] at h
      simp only [bind, Except.bind, pure, Except.pure] at h
      repeat' split at h
      all_goals cases h <;> rfl
    rw [hstack]
    exact length_of_pop hp

/-- Settles states until the start state and so many others are left. -/
def settleDown (keep : Nat) (b : Builder σ) : Except Breach (Builder σ) :=
  if keep + 1 < b.stack.length then
    match _h : b.settleEnd with
    | .ok b => settleDown keep b
    | .error e => .error e
  else .ok b
termination_by b.stack.length
decreasing_by
  have := length_of_settleEnd _h
  omega

/-- Settles the path from depth `k` on, which has to be a depth that the path has. -/
def settle (b : Builder σ) (k : Nat) : Except Breach (Builder σ) :=
  if k < b.stack.length then b.settleDown k else .error .shortStack

/-- Settles the path from depth `k` on, and answers whether there was a state to settle. -/
def settleSuffix (b : Builder σ) (k : Nat) : Except Breach (Bool × Builder σ) := do
  let settles := k + 1 < b.stack.length
  return (settles, ← b.settle k)

/-! ## Adding a word and closing -/

/-- Hangs a chain of new states for the symbols of a word on the end of the path, and answers whether
an edge was taken. -/
def hang (b : Builder σ) (overwrote : Bool) : Word σ → Except Breach (Builder σ × Bool)
  | [] => .ok (b, overwrote)
  | c :: w => do
    let parent ← endState b.stack
    let (child, arena) ← b.arena.create false
    let (old, arena) ← arena.setEdge parent c child
    hang { b with arena, stack := (some c, child) :: b.stack } (overwrote || old.isSome) w

/-- Adds a word, in order or not. -/
def add (b : Builder σ) (w : Word σ) : Except Breach (Builder σ × Insertion) := do
  let k := w.commonPrefixLength b.lastWord
  let settles := k + 1 < b.stack.length
  let b ← b.settle k
  match w.drop k with
  | [] =>
    let s ← endState b.stack
    if (← b.arena.state s).isFinal then return (b, ⟨false, settles, false⟩)
    else return ({ b with arena := ← b.arena.setFinal s true }, ⟨true, true, false⟩)
  | suffix =>
    let (b, overwrote) ← b.hang false suffix
    return ({ b with arena := ← b.arena.setFinal (← endState b.stack) true },
      ⟨true, true, overwrote⟩)

/-- To add a word is to settle what it does not share with the last one, and to hang the rest on. -/
theorem add_eq_settleSuffix (b : Builder σ) (w : Word σ) : b.add w = (do
    let k := w.commonPrefixLength b.lastWord
    let (settles, b) ← b.settleSuffix k
    match w.drop k with
    | [] =>
      let s ← endState b.stack
      if (← b.arena.state s).isFinal then return (b, ⟨false, settles, false⟩)
      else return ({ b with arena := ← b.arena.setFinal s true }, ⟨true, true, false⟩)
    | suffix =>
      let (b, overwrote) ← b.hang false suffix
      return ({ b with arena := ← b.arena.setFinal (← endState b.stack) true },
        ⟨true, true, overwrote⟩)) := by
  unfold add settleSuffix
  dsimp only
  cases b.settle (w.commonPrefixLength b.lastWord) <;> rfl

/-- Settles the whole path and the start state. -/
def close (b : Builder σ) (root : StateId) : Except Breach (Builder σ) := do
  let b ← b.settle 0
  let (_, register) ← b.register.canonicalize b.arena root
  return { b with register }

/-! ## The builder of an automaton -/

/-- The stack for a path. -/
def stackOf (root : StateId) (path : List (σ × StateId)) : PathStack σ :=
  (path.map fun e => (some e.1, e.2)).reverse ++ [(none, root)]

/-- The builder in which an automaton grows. -/
def ofAutomaton (g : Automaton σ) : Builder σ := ⟨g.arena, g.register, stackOf g.root g.path⟩

end Builder

end WordGraph
