import WordGraph.Automaton.Builder
import WordGraph.Proofs.Automaton.Add
import WordGraph.Proofs.Run

/-!
# No assertion of a builder fails

A builder whose stack stands for a path does what the automaton with that path does, step by step,
and so the assertions on the stack never fail: there is always a state to take off, it is never the
start state, and a state whose slot is freed is there. What is left are the faults of the automaton
itself, of which a growing automaton knows one: there is no slot for a new state.

* `settleDown_stackOf` — the states are settled one after the other as they are by `settleLoop`
* `settleSuffix_ofAutomaton` — a builder settles as its automaton does, and answers whether it had to
* `hang_stackOf` — a chain is hung on the end as it is by `Automaton.hang`
* `add_ofAutomaton`, `close_ofAutomaton` — a builder adds a word and closes as its automaton does
* `add_spec`, `close_spec` — where the automaton can grow, no assertion fails
-/

namespace WordGraph.Builder

open Arena Automaton

variable {σ : Type} [Symbol σ] {g : Automaton σ} {a a' : Arena σ} {r : Register σ}
  {root s t : StateId} {c : σ} {p q chain : List (σ × StateId)} {k : Nat}

/-! ## The stack of a path -/

omit [Symbol σ] in
theorem stackOf_concat (root : StateId) (p : List (σ × StateId)) (c : σ) (s : StateId) :
    stackOf root (p ++ [(c, s)]) = (some c, s) :: stackOf root p := by
  simp [stackOf]

omit [Symbol σ] in
@[simp] theorem length_stackOf (root : StateId) (p : List (σ × StateId)) :
    (stackOf root p).length = p.length + 1 := by
  simp [stackOf]

omit [Symbol σ] in
@[simp] theorem endState_stackOf (root : StateId) (p : List (σ × StateId)) :
    endState (stackOf root p) = .ok (endOf root p) := by
  induction p using List.reverseRecOn with
  | nil => rfl
  | append_singleton p e ih =>
    obtain ⟨c, s⟩ := e
    rw [stackOf_concat, endOf_concat]
    rfl

omit [Symbol σ] in
@[simp] theorem pop_stackOf_concat (root : StateId) (p : List (σ × StateId)) (c : σ)
    (s : StateId) : pop (stackOf root (p ++ [(c, s)])) = .ok ((c, s), stackOf root p) := by
  rw [stackOf_concat]
  rfl

theorem lastWord_ofAutomaton (g : Automaton σ) : (ofAutomaton g).lastWord = g.lastWord := by
  have hsome : ∀ p : List (σ × StateId),
      (p.map fun e => (some e.1, e.2)).filterMap Prod.fst = p.map Prod.fst := by
    intro p
    induction p with
    | nil => rfl
    | cons e p ih => simp [ih]
  simp [lastWord, ofAutomaton, stackOf, hsome, Automaton.lastWord]

/-! ## Faults -/

@[simp] theorem liftM_ok {α : Type} (x : α) :
    (liftM (.ok x : Except Fault α) : Except Breach α) = .ok x := rfl

/-! ## Settling -/

/-- A state that has a kind is there. -/
theorem isLive_of_find? {o : Option StateId} (h : r.find? a s = .ok o) : a.isLive s := by
  obtain ⟨f, hf, -⟩ := Register.find?_eq_ok_iff.1 h
  obtain ⟨x, hx, -⟩ := Register.kind_eq_ok_iff.1 hf
  exact isLive_of_get? hx

/-- A state is there after an edge was pointed if it was before, so it can be deleted. -/
theorem delete_of_setEdge {old : Option StateId} (hs : a.isLive s)
    (h : a.setEdge t c root = .ok (old, a')) : delete a' s = .ok (a'.delete s) := by
  obtain ⟨-, x, hx, -, rfl⟩ := setEdge_eq_ok_iff.1 h
  refine if_pos (isLive_iff.2 ?_)
  rw [get?_put (slot_lt_of_get? hx)]
  split
  · exact ⟨_, rfl⟩
  · exact isLive_iff.1 hs

theorem settleDown_of_length_le {b : Builder σ} (h : b.stack.length ≤ k + 1) :
    b.settleDown k = .ok b := by
  rw [settleDown, if_neg (Nat.not_lt.2 h)]

theorem settleDown_of_lt {b : Builder σ} (h : k + 1 < b.stack.length) :
    b.settleDown k = b.settleEnd >>= settleDown k := by
  rw [settleDown, if_pos h]
  cases b.settleEnd <;> rfl

/-- **Settling takes the same course on the stack**: with `q` settled, the deepest state first, the
stack for `p` and `q` becomes the stack for `p`. -/
theorem settleDown_stackOf (root : StateId) (p : List (σ × StateId)) (a : Arena σ)
    (r : Register σ) (merges : List (Merge σ)) (q : List (σ × StateId)) :
    settleDown p.length ⟨a, r, stackOf root (p ++ q.reverse)⟩ = do
      let (a, r, _) ← settleLoop a r (endOf root p) merges q
      return ⟨a, r, stackOf root p⟩ := by
  induction q generalizing a r merges with
  | nil =>
    rw [List.reverse_nil, List.append_nil, settleDown_of_length_le (by simp)]
    rfl
  | cons e q ih =>
    obtain ⟨c, s⟩ := e
    rw [List.reverse_cons, ← List.append_assoc, settleDown_of_lt (by simp), settleEnd, settleLoop]
    simp only [pop_stackOf_concat, ok_bind]
    cases hf : r.find? a s with
    | error f => rfl
    | ok o =>
      cases o with
      | some t =>
        simp only [liftM_ok, ok_bind, endState_stackOf, endOf_append_reverse]
        cases hset : a.setEdge ((q.head?.map Prod.snd).getD (endOf root p)) c t with
        | error f => rfl
        | ok made =>
          obtain ⟨old, a'⟩ := made
          simp only [liftM_ok, ok_bind, delete_of_setEdge (isLive_of_find? hf) hset]
          exact ih (a'.delete s) r (⟨s, t, c⟩ :: merges)
      | none =>
        simp only [liftM_ok, ok_bind]
        cases hins : r.insert a s with
        | error f => rfl
        | ok made =>
          obtain ⟨isNew, r'⟩ := made
          exact ih a r' merges

/-- The path is settled from a depth that it has. -/
theorem settle_ofAutomaton (g : Automaton σ) (hk : k ≤ g.path.length) :
    (ofAutomaton g).settle k = do
      let (g, _) ← g.settle k
      return ofAutomaton g := by
  have hlen : (g.path.take k).length = k := List.length_take_of_le hk
  have hpath : g.path = g.path.take k ++ (g.path.drop k).reverse.reverse := by
    rw [List.reverse_reverse, List.take_append_drop]
  have hrun := settleDown_stackOf g.root (g.path.take k) g.arena g.register []
    (g.path.drop k).reverse
  rw [hlen, ← hpath] at hrun
  have hdepth : k < (ofAutomaton g).stack.length := by
    rw [ofAutomaton, length_stackOf]
    exact Nat.lt_succ_of_le hk
  rw [settle, if_pos hdepth, ofAutomaton, hrun, Automaton.settle]
  cases settleLoop g.arena g.register (endOf g.root (g.path.take k)) []
    (g.path.drop k).reverse <;> rfl

/-- There is a state to settle if the path goes on behind that depth. -/
theorem settleSuffix_ofAutomaton (g : Automaton σ) (hk : k ≤ g.path.length) :
    (ofAutomaton g).settleSuffix k = do
      let (g', _) ← g.settle k
      return (decide (k < g.path.length), ofAutomaton g') := by
  have hdepth : (k + 1 < (ofAutomaton g).stack.length) = (k < g.path.length) := by
    rw [ofAutomaton, length_stackOf]
    exact propext Nat.succ_lt_succ_iff
  rw [settleSuffix, settle_ofAutomaton g hk]
  simp only [hdepth]
  cases g.settle k <;> rfl

/-! ## Hanging a chain -/

/-- The state that `Automaton.hang` answers is the end of the path with the chain. -/
theorem endOf_of_hang {b b' : Bool} {w : Word σ}
    (h : Automaton.hang a t chain b w = .ok (a', s, q, b'))
    (ht : t = endOf root (p ++ chain.reverse)) : s = endOf root (p ++ q) := by
  induction w generalizing a t chain b with
  | nil =>
    cases h
    exact ht
  | cons c w ih =>
    rw [hang_cons, bind_eq_ok_iff] at h
    obtain ⟨⟨child, a₁⟩, -, h⟩ := h
    obtain ⟨⟨old, a₂⟩, -, h⟩ := bind_eq_ok_iff.1 h
    refine ih h ?_
    rw [List.reverse_cons, ← List.append_assoc, endOf_concat]

/-- **A chain is hung in the same way on the end of the stack.** -/
theorem hang_stackOf (root : StateId) (p : List (σ × StateId)) (a : Arena σ) (r : Register σ)
    (chain : List (σ × StateId)) (b : Bool) (w : Word σ) :
    hang ⟨a, r, stackOf root (p ++ chain.reverse)⟩ b w = do
      let (a, _, chain, b) ← Automaton.hang a (endOf root (p ++ chain.reverse)) chain b w
      return (⟨a, r, stackOf root (p ++ chain)⟩, b) := by
  induction w generalizing a chain b with
  | nil => rfl
  | cons c w ih =>
    rw [hang, hang_cons]
    simp only [endState_stackOf, ok_bind]
    cases a.create false with
    | error f => rfl
    | ok made =>
      obtain ⟨child, a₁⟩ := made
      simp only [liftM_ok, ok_bind]
      cases a₁.setEdge (endOf root (p ++ chain.reverse)) c child with
      | error f => rfl
      | ok set =>
        obtain ⟨old, a₂⟩ := set
        have hrun := ih a₂ ((c, child) :: chain) (b || old.isSome)
        rw [List.reverse_cons, ← List.append_assoc, endOf_concat, stackOf_concat] at hrun
        exact hrun

/-! ## Adding a word and closing -/

/-- **A builder adds a word as its automaton does**, with no assertion that fails by itself. -/
theorem add_ofAutomaton (g : Automaton σ) (w : Word σ) :
    (ofAutomaton g).add w = do
      let (g, i, _) ← g.add w
      return (ofAutomaton g, i) := by
  have hlen : g.lastWord.length = g.path.length := List.length_map ..
  have hk : w.commonPrefixLength g.lastWord ≤ g.path.length :=
    hlen ▸ Word.commonPrefixLength_le_right w g.lastWord
  rw [add_eq_settleSuffix, Automaton.add, addWithin]
  simp only [lastWord_ofAutomaton, settleSuffix_ofAutomaton g hk, hlen]
  cases g.settle (w.commonPrefixLength g.lastWord) with
  | error f => rfl
  | ok settled =>
    obtain ⟨g₁, ms⟩ := settled
    simp only [liftM_ok, ok_bind, pure_bind]
    cases w.drop (w.commonPrefixLength g.lastWord) with
    | nil =>
      simp only [ofAutomaton, endState_stackOf, ok_bind]
      cases g₁.arena.state (endOf g₁.root g₁.path) with
      | error f => rfl
      | ok x =>
        simp only [liftM_ok, ok_bind]
        cases x.isFinal with
        | true => rfl
        | false =>
          simp only [Bool.false_eq_true, if_false]
          cases g₁.arena.setFinal (endOf g₁.root g₁.path) true <;> rfl
    | cons c u =>
      have hrun := hang_stackOf g₁.root g₁.path g₁.arena g₁.register [] false (c :: u)
      rw [List.reverse_nil, List.append_nil, Automaton.hang] at hrun
      simp only [ofAutomaton, hrun]
      cases hh : hangWithin (some slotLimit) g₁.arena (endOf g₁.root g₁.path) [] false (c :: u) with
      | error f => rfl
      | ok made =>
        obtain ⟨a, s, chain, b⟩ := made
        have hs : s = endOf g₁.root (g₁.path ++ chain) := endOf_of_hang hh (by simp)
        simp only [liftM_ok, ok_bind, pure_bind, endState_stackOf, ← hs]
        cases a.setFinal s true <;> rfl

/-- **A builder closes as its automaton does.** -/
theorem close_ofAutomaton (g : Automaton σ) :
    (ofAutomaton g).close g.root = do
      let (g, _) ← g.close
      return ofAutomaton g := by
  rw [close, Automaton.close, settle_ofAutomaton g (Nat.zero_le _)]
  cases hs : g.settle 0 with
  | error f => rfl
  | ok settled =>
    obtain ⟨g₁, ms⟩ := settled
    have hroot : g₁.root = g.root := by
      rw [Automaton.settle, bind_eq_ok_iff] at hs
      obtain ⟨made, -, hs⟩ := hs
      cases hs
      rfl
    simp only [liftM_ok, ok_bind, pure_bind, ofAutomaton, hroot]
    cases g₁.register.canonicalize g₁.arena g.root <;> rfl

/-! ## Where the automaton can grow -/

/-- **No assertion fails when a word is added**: the word is added as the automaton adds it, or there
are more new states than slots. -/
theorem add_spec (hg : g.Growing) (w : Word σ) :
    (∃ g' i ms, g.add w = .ok (g', i, ms) ∧ (ofAutomaton g).add w = .ok (ofAutomaton g', i)) ∨
      (ofAutomaton g).add w = .error (.fault .arenaFull) ∧
        slotLimit < g.arena.live + w.length := by
  rw [add_ofAutomaton]
  cases hadd : g.add w with
  | ok made =>
    obtain ⟨g', i, ms⟩ := made
    exact .inl ⟨g', i, ms, rfl, rfl⟩
  | error f =>
    obtain ⟨rfl, -, n, hn, hlt⟩ := hg.addWithin_error hadd
    cases hn
    exact .inr ⟨rfl, hlt⟩

/-- **No assertion fails when the automaton is closed.** -/
theorem close_spec (hg : g.Growing) :
    ∃ g' ms, g.close = .ok (g', ms) ∧ (ofAutomaton g).close g.root = .ok (ofAutomaton g') := by
  obtain ⟨g', ms, hrun, -⟩ := hg.close_spec
  exact ⟨g', ms, hrun, by rw [close_ofAutomaton, hrun]; rfl⟩

end WordGraph.Builder
