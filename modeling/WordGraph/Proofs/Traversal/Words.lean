import WordGraph.Lexicon.History
import WordGraph.Lexicon.Query
import WordGraph.Proofs.Arena.Listing

/-!
# What a traversal hands out

The words that are still to come from a stack of frames are told by the lists of the words accepted
from their states. Handing out a word takes the first of them, so a traversal hands out just the
accepted words that fit its pattern, in lexicographic order, and comes to an end.

* `Frame.Ready` — a frame has room for every path from its state
* `Frame.words_eq` — the words of a frame, by those of its children
* `Traversal.nextWord_spec` — the next word is the first that is to come
* `Traversal.words_start` — the list of all words that fit a pattern
* `Traversal.agree_spec` — traversals are compared by the words that are to come
* `Traversal.At.next` — the next word, by the number of those before it
-/

namespace WordGraph

open Arena

variable {σ : Type} [Symbol σ] {a b : Arena σ} {root t : StateId} {c : σ} {f : Frame σ} {x : State σ}
  {policy : LengthPolicy} {stack : List (Frame σ)} {done : List (Word σ)} {room : Nat}

namespace Frame

/-- A frame stands for a state without cycles behind it, and has room for every path from it. -/
structure Ready (a : Arena σ) (f : Frame σ) : Prop where
  dag : a.Dag f.state
  length_le : ∀ {w t}, a.Path f.state w t → w.length ≤ f.room

/-- The words that come out of a frame. -/
def words (a : Arena σ) (policy : LengthPolicy) (f : Frame σ) : List (Word σ) :=
  ((a.listing f.state).filter fun w => Pattern.fits policy f.places w).map fun w =>
    f.spelled.reverse ++ w

theorem Ready.child (h : f.Ready a) (hroom : f.room = room + 1) (he : a.Edge f.state c t) :
    (f.child room (c, t)).Ready a where
  dag := h.dag.of_edge he
  length_le {w u} hp := by
    have hle := h.length_le (path_cons_iff_edge.2 ⟨t, he, hp⟩)
    rw [hroom, List.length_cons] at hle
    exact Nat.le_of_succ_le_succ hle

/-- The words behind an edge are those of the child along it, if the pattern allows the edge. -/
theorem words_child (policy : LengthPolicy) (f : Frame σ) (room : Nat) (e : σ × StateId) :
    (((a.listing e.2).map fun w => e.1 :: w).filter fun w => Pattern.fits policy f.places w).map
        (fun w => f.spelled.reverse ++ w) =
      if Pattern.allows policy f.places e.1 then (f.child room e).words a policy else [] := by
  have hfits : ∀ w, Pattern.fits policy f.places (e.1 :: w) =
      (Pattern.allows policy f.places e.1 && Pattern.fits policy f.places.tail w) := fun _ => rfl
  rw [List.filter_map, List.map_map]
  cases hallow : Pattern.allows policy f.places e.1 <;>
    simp [Function.comp_def, hfits, hallow, words, child]

/-- The words of a frame are the one that ends there, if it is to be handed out, and those of its
children. -/
theorem words_eq (hdag : a.Dag f.state) (hx : a.get? f.state = some x) (room : Nat) :
    f.words a policy =
      (if x.isFinal && Pattern.endsAt policy f.places then [f.spelled.reverse] else []) ++
        ((f.allowed policy x).map (f.child room)).flatMap (words a policy) := by
  have hedges : ∀ es : List (σ × StateId),
      ((es.flatMap fun e => (a.listing e.2).map fun w => e.1 :: w).filter
          fun w => Pattern.fits policy f.places w).map (fun w => f.spelled.reverse ++ w) =
        ((es.filter fun e => Pattern.allows policy f.places e.1).map (f.child room)).flatMap
          (words a policy) := by
    intro es
    induction es with
    | nil => rfl
    | cons e es ih =>
      rw [List.flatMap_cons, List.filter_append, List.map_append, ih, words_child policy f room,
        List.filter_cons]
      split <;> simp
  have hnil : ∀ places : List (Option σ), Pattern.fits policy places ([] : Word σ) =
      Pattern.endsAt policy places := by
    intro places
    cases places <;> rfl
  rw [words, listing_eq hdag hx, wordsOf, List.filter_append, List.map_append, hedges, allowed]
  refine congrArg (· ++ _) ?_
  cases x.isFinal
  · rfl
  · cases hend : Pattern.endsAt policy f.places <;> simp [hnil, hend]

/-- A frame that has room for every path from its state has children, and so have they. -/
theorem Ready.exists_children (h : f.Ready a) (policy : LengthPolicy) (hx : a.get? f.state = some x) :
    ∃ fs, f.children policy x = .ok fs ∧ (∀ g ∈ fs, g.Ready a) ∧
      f.words a policy =
        (if x.isFinal && Pattern.endsAt policy f.places then [f.spelled.reverse] else []) ++
          fs.flatMap (words a policy) := by
  unfold children
  cases hroom : f.room with
  | zero =>
    have hnone : f.allowed policy x = [] := by
      rw [allowed, List.filter_eq_nil_iff]
      rintro ⟨c, t⟩ he -
      have hle := h.length_le ((edge_iff_mem hx).2 he).path
      rw [hroom] at hle
      exact Nat.not_succ_le_zero _ hle
    refine ⟨[], by simp [hnone], by simp, ?_⟩
    rw [words_eq h.dag hx 0, hnone]
    rfl
  | succ room =>
    refine ⟨_, rfl, fun g hg => ?_, words_eq h.dag hx room⟩
    obtain ⟨⟨c, t⟩, he, rfl⟩ := List.mem_map.1 hg
    exact h.child hroom ((edge_iff_mem hx).2 (List.mem_filter.1 he).1)

end Frame

namespace Traversal

/-- The words that come out of a stack of frames. -/
def wordsLeft (a : Arena σ) (policy : LengthPolicy) (stack : List (Frame σ)) : List (Word σ) :=
  stack.flatMap (Frame.words a policy)

/-- **The next word is the first that is to come.** -/
theorem nextWord_spec (policy : LengthPolicy) (h : ∀ f ∈ stack, f.Ready a) :
    nextWord a policy stack = .ok none ∧ wordsLeft a policy stack = [] ∨
      ∃ w rest, nextWord a policy stack = .ok (some (w, rest)) ∧ (∀ f ∈ rest, f.Ready a) ∧
        wordsLeft a policy stack = w :: wordsLeft a policy rest := by
  fun_induction nextWord a policy stack with
  | case1 => exact .inl ⟨rfl, rfl⟩
  | case2 f stack hx =>
    obtain ⟨x, hx'⟩ := isLive_iff.1 (h f (List.mem_cons_self ..)).dag.isLive
    rw [hx] at hx'
    cases hx'
  | case3 f stack x hx e hfs =>
    obtain ⟨fs, hfs', -⟩ := (h f (List.mem_cons_self ..)).exists_children policy hx
    rw [hfs] at hfs'
    cases hfs'
  | case4 f stack x hx fs hfs hend =>
    obtain ⟨fs', hfs', hready, hwords⟩ :=
      (h f (List.mem_cons_self ..)).exists_children policy hx
    rw [hfs] at hfs'
    cases hfs'
    refine .inr ⟨_, _, rfl, ?_, ?_⟩
    · exact List.forall_mem_append.2 ⟨hready, fun g hg => h g (List.mem_cons_of_mem _ hg)⟩
    · rw [wordsLeft, List.flatMap_cons, hwords, if_pos hend, wordsLeft, List.flatMap_append]
      rfl
  | case5 f stack x hx fs hfs hend ih =>
    obtain ⟨fs', hfs', hready, hwords⟩ :=
      (h f (List.mem_cons_self ..)).exists_children policy hx
    rw [hfs] at hfs'
    cases hfs'
    have hsame : wordsLeft a policy (f :: stack) = wordsLeft a policy (fs ++ stack) := by
      rw [wordsLeft, List.flatMap_cons, hwords, if_neg hend, wordsLeft, List.flatMap_append]
      rfl
    rw [hsame]
    exact ih (List.forall_mem_append.2 ⟨hready, fun g hg => h g (List.mem_cons_of_mem _ hg)⟩)

/-- The next word and the words that are left behind it are the head and the tail of those that are to
come. -/
theorem exists_nextWord (policy : LengthPolicy) (h : ∀ f ∈ stack, f.Ready a) :
    ∃ answer, nextWord a policy stack = .ok answer ∧
      answer.map Prod.fst = (wordsLeft a policy stack).head? ∧
      (∀ f ∈ answer.elim [] Prod.snd, f.Ready a) ∧
      wordsLeft a policy (answer.elim [] Prod.snd) = (wordsLeft a policy stack).tail := by
  rcases nextWord_spec policy h with ⟨hn, hw⟩ | ⟨w, rest, hn, hready, hw⟩ <;> rw [hw]
  · exact ⟨none, hn, rfl, by simp, rfl⟩
  · exact ⟨some (w, rest), hn, rfl, hready, rfl⟩

theorem wordsFrom_spec (h : ∀ f ∈ stack, f.Ready a) :
    wordsFrom a policy done stack = .ok (done.reverse ++ wordsLeft a policy stack) := by
  fun_induction wordsFrom a policy done stack with
  | case1 done stack f hf =>
    rcases nextWord_spec policy h with ⟨hn, -⟩ | ⟨w, rest, hn, -⟩ <;>
    · rw [hf] at hn
      cases hn
  | case2 done stack hf =>
    rcases nextWord_spec policy h with ⟨-, hw⟩ | ⟨w, rest, hn, -⟩
    · rw [hw, List.append_nil]
    · rw [hf] at hn
      cases hn
  | case3 done stack w rest hf ih =>
    rcases nextWord_spec policy h with ⟨hn, -⟩ | ⟨w, rest, hn, hready, hw⟩
    · rw [hf] at hn
      cases hn
    · rw [hf] at hn
      cases hn
      rw [ih hready, hw]
      simp

/-- The frame that a traversal starts with has room for every path. -/
theorem ready_start (h : a.Dag root) (p : Pattern σ) :
    ∀ f ∈ (start a root p).stack, f.Ready a := by
  intro f hf
  rw [start, List.mem_singleton] at hf
  subst hf
  refine ⟨h, fun hp => ?_⟩
  have := h.length_lt_of_path hp
  show _ ≤ p.places.length + a.slotCount
  omega

/-- What comes out of that frame are the accepted words that fit the pattern. -/
theorem wordsLeft_start (a : Arena σ) (root : StateId) (p : Pattern σ) :
    wordsLeft a p.policy (start a root p).stack = (a.listing root).filter p.accepts := by
  simp only [start, wordsLeft, Frame.words, List.reverse_nil, List.nil_append, List.map_id',
    List.flatMap_singleton]
  rfl

/-- **A traversal hands out the accepted words that fit its pattern**, in order. -/
theorem words_start (h : a.Dag root) (p : Pattern σ) :
    (start a root p).words a = .ok ((a.listing root).filter p.accepts) := by
  rw [words, wordsFrom_spec (ready_start h p), ← wordsLeft_start a root p]
  rfl

/-- **Two traversals agree if they have the same words to come.** -/
theorem agree_spec (policy other : LengthPolicy) {stack' : List (Frame σ)}
    (h : ∀ f ∈ stack, f.Ready a) (h' : ∀ f ∈ stack', f.Ready b) :
    agree a b policy other stack stack' =
      .ok (wordsLeft a policy stack = wordsLeft b other stack') := by
  fun_induction agree a b policy other stack stack' with
  | case1 stack stack' f hf =>
    rcases nextWord_spec policy h with ⟨hn, -⟩ | ⟨w, rest, hn, -⟩ <;>
    · rw [hf] at hn
      cases hn
  | case2 stack stack' hf =>
    rcases nextWord_spec policy h with ⟨-, hw⟩ | ⟨w, rest, hn, -⟩
    · rcases nextWord_spec other h' with ⟨hn', hw'⟩ | ⟨v, rest', hn', -, hw'⟩ <;>
      · rw [hn', hw, hw']
        rfl
    · rw [hf] at hn
      cases hn
  | case3 stack stack' w rest hf ih =>
    rcases nextWord_spec policy h with ⟨hn, -⟩ | ⟨w', rest', hn, hready, hw⟩
    · rw [hf] at hn
      cases hn
    · rw [hf] at hn
      cases hn
      rcases nextWord_spec other h' with ⟨hn', hw'⟩ | ⟨v, rest', hn', hready', hw'⟩
      · rw [hn', hw, hw']
        rfl
      · rw [hn', hw, hw']
        show (if w = v then _ else _) = _
        split
        · next hwv => simp [ih rest' hready hready', hwv]
        · next hwv => simp [hwv, pure, Except.pure]

/-! ## Words that were handed out -/

/-- A traversal of the words that fit a pattern has handed out the first `n` of them. -/
structure At (a : Arena σ) (root : StateId) (p : Pattern σ) (n : Nat) (t : Traversal σ) :
    Prop where
  policy_eq : t.policy = p.policy
  ready : ∀ f ∈ t.stack, f.Ready a
  wordsLeft_eq : wordsLeft a p.policy t.stack = ((a.listing root).filter p.accepts).drop n

theorem At.start (h : a.Dag root) (p : Pattern σ) : At a root p 0 (start a root p) where
  policy_eq := rfl
  ready := ready_start h p
  wordsLeft_eq := wordsLeft_start a root p

/-- A traversal that has handed out all words stays at the end. -/
theorem At.atEnd {p : Pattern σ} {n : Nat} (h : ((a.listing root).filter p.accepts).length ≤ n) :
    At a root p n ⟨p.policy, []⟩ where
  policy_eq := rfl
  ready := by simp
  wordsLeft_eq := (List.drop_eq_nil_of_le h).symm

/-- The next word is the one behind those that were handed out. -/
theorem At.next {p : Pattern σ} {n : Nat} {t : Traversal σ} (h : t.At a root p n) :
    t.next a = .ok none ∧ ((a.listing root).filter p.accepts).length ≤ n ∨
      ∃ w t', t.next a = .ok (some (w, t')) ∧ t'.At a root p (n + 1) ∧
        ((a.listing root).filter p.accepts)[n]? = some w := by
  rcases nextWord_spec p.policy h.ready with ⟨hn, hw⟩ | ⟨w, rest, hn, hready, hw⟩ <;>
    rw [h.wordsLeft_eq] at hw
  · refine .inl ⟨?_, List.drop_eq_nil_iff.1 hw⟩
    rw [Traversal.next, h.policy_eq, hn]
    rfl
  · refine .inr ⟨w, { t with stack := rest }, ?_, ⟨h.policy_eq, hready, ?_⟩, ?_⟩
    · rw [Traversal.next, h.policy_eq, hn]
      rfl
    · rw [← List.tail_drop, hw]
      rfl
    · rw [← List.head?_drop, hw]
      rfl

/-- Words are handed out in portions, each from where the one before it has ended. -/
theorem At.takeFrom {p : Pattern σ} {n : Nat} {t : Traversal σ} (h : t.At a root p n)
    (done : List (Word σ)) (m : Nat) :
    ∃ t', t.takeFrom a done m =
        .ok (done.reverse ++ (((a.listing root).filter p.accepts).drop n).take m, t') ∧
      t'.At a root p (n + m) := by
  induction m generalizing n t done with
  | zero => exact ⟨t, by simp [Traversal.takeFrom], h⟩
  | succ m ih =>
    rw [Traversal.takeFrom]
    rcases h.next with ⟨hn, hle⟩ | ⟨w, t', hn, hat, hw⟩
    · refine ⟨⟨p.policy, []⟩, ?_, .atEnd (Nat.le_trans hle (Nat.le_add_right ..))⟩
      rw [hn, List.drop_eq_nil_of_le hle, h.policy_eq]
      simp [bind, Except.bind, pure, Except.pure]
    · obtain ⟨t'', hrun, hat'⟩ := ih hat (w :: done)
      refine ⟨t'', ?_, by rwa [Nat.add_assoc, Nat.add_comm 1] at hat'⟩
      obtain ⟨hlt, hget⟩ := List.getElem?_eq_some_iff.1 hw
      rw [hn, List.drop_eq_getElem_cons hlt, hget]
      simp only [bind, Except.bind, hrun, List.reverse_cons, List.append_assoc, List.take_succ_cons,
        List.singleton_append]

end Traversal

namespace Lexicon

variable {l : Lexicon σ}

/-- A lexicon hands out the words that fit a pattern, in lexicographic order. -/
theorem words_find (h : l.arena.Dag l.root) (p : Pattern σ) :
    (l.find p).words l.arena = .ok ((l.arena.listing l.root).filter p.accepts) :=
  Traversal.words_start h p

/-- Every word fits the pattern that asks for nothing. -/
theorem filter_any (ws : List (Word σ)) : ws.filter Pattern.any.accepts = ws :=
  List.filter_eq_self.2 fun w _ => Pattern.accepts_any w

/-- A lexicon hands out its words, in lexicographic order. -/
theorem words_eq (h : l.arena.Dag l.root) : l.words = .ok (l.arena.listing l.root) := by
  rw [words, traversal, words_find h, filter_any]

/-- **Lexicons are compared by their words.** -/
theorem sameWords_eq {m : Lexicon σ} (h : l.arena.Dag l.root) (h' : m.arena.Dag m.root) :
    l.sameWords m = .ok (l.size = m.size ∧
      l.arena.listing l.root = m.arena.listing m.root) := by
  unfold sameWords
  split
  · next hsize =>
    have hagree := Traversal.agree_spec l.traversal.policy m.traversal.policy
      (Traversal.ready_start h .any) (Traversal.ready_start h' .any)
    have hl := Traversal.wordsLeft_start l.arena l.root .any
    have hm := Traversal.wordsLeft_start m.arena m.root .any
    rw [filter_any] at hl hm
    simp only [hsize, true_and, ← hl, ← hm]
    exact hagree
  · next hsize => simp [hsize, pure, Except.pure]

end Lexicon

end WordGraph
