import Mathlib
import WordGraph.Proofs.Lexicon.Resume
import WordGraph.Proofs.Traversal.Words
import WordGraph.Traversal.Search

/-!
# What a search hands out

A search and a traversal visit the same states in the same order. The visits on the stack of a search
get deeper from the bottom to the top, so the part of the buffer on which a visit relies is still there
when its turn comes, and the buffer then holds the word that a traversal has kept for the state. Places
of a mask that lie behind a state are told by its depth, those of a pattern are what is left of it.

* `Search.Follows` — a search stands where a traversal stands
* `Follows.turn` — one visit keeps it there
* `Follows.nextWord` — so both hand out the same word
* `Search.handsOut_listing` — a search hands out the accepted words that fit its mask, and then nothing
* `existsUnique_enumerates` — all accepted words come out, each once and in order
* `Lexicon.Reachable.finds` — those that fit a mask are the ones a filter would leave
-/

namespace WordGraph

open Arena

variable {σ : Type} [Symbol σ] {a : Arena σ} {root : StateId} {x : State σ} {v u : Visit σ}
  {f : Frame σ} {fs frames : List (Frame σ)} {rest : List (Visit σ)} {mask : Option (Mask σ)}
  {buffer : Word σ} {t : Search σ} {ws : List (Word σ)} {c : σ} {n : Nat}

/-! ## Masks and patterns -/

/-- The pattern for what is asked of words. -/
def Pattern.ofMask (mask : Option (Mask σ)) : Pattern σ := mask.elim .any Mask.pattern

theorem Pattern.allows_ofMask_drop (mask : Option (Mask σ)) (n : Nat) (c : σ) :
    Pattern.allows (ofMask mask).policy ((ofMask mask).places.drop n) c =
      mask.all (·.allows n c) := by
  cases mask with
  | none => simp [ofMask, any, allows]
  | some m => exact m.allows_drop n c

theorem Pattern.endsAt_ofMask_drop
    (h : (ofMask mask).policy ≠ .atLeast → n ≤ (ofMask mask).places.length) :
    Pattern.endsAt (ofMask mask).policy ((ofMask mask).places.drop n) =
      mask.all (·.admits n) := by
  cases mask with
  | none => simp [ofMask, any, endsAt]
  | some m => exact Mask.endsAt_drop fun hp => m.length_places_pattern ▸ h hp

theorem Pattern.lt_of_allows_ofMask (h : mask.all (·.allows n c))
    (hp : (ofMask mask).policy ≠ .atLeast) : n < (ofMask mask).places.length := by
  cases mask with
  | none => exact absurd rfl hp
  | some m => exact m.length_places_pattern ▸ Mask.lt_of_allows h hp

/-! ## The buffer -/

namespace Visit

omit [Symbol σ] in
/-- A visit that is not deeper than another finds in the buffer what it would have found before the
other. -/
theorem spell_spell (hv : (v.spell buffer).length = v.depth) (hle : u.depth ≤ v.depth)
    (hu : u.symbol ≠ none) : u.spell (v.spell buffer) = u.spell buffer := by
  obtain ⟨c, hc⟩ := Option.ne_none_iff_exists'.1 hu
  cases hs : v.symbol with
  | none => simp only [spell, hs]
  | some d =>
    simp only [spell, hs, List.length_append, List.length_singleton] at hv
    have hkept : (buffer.take (v.depth - 1) ++ [d]).take (u.depth - 1) =
        buffer.take (u.depth - 1) := by
      rw [List.take_append_of_le_length (by omega), List.take_take, Nat.min_eq_left (by omega)]
    simp only [spell, hs, hc, hkept]

/-- A visit to come stands for a frame of a traversal. -/
structure StandsFor (mask : Option (Mask σ)) (buffer : Word σ) (v : Visit σ) (f : Frame σ) : Prop
    where
  state_eq : v.state = f.state
  depth_eq : v.depth = f.spelled.length
  spell_eq : v.spell buffer = f.spelled.reverse
  places_eq : f.places = (Pattern.ofMask mask).places.drop v.depth
  depth_le : (Pattern.ofMask mask).policy ≠ .atLeast →
    v.depth ≤ (Pattern.ofMask mask).places.length

namespace StandsFor

theorem length_spell (h : v.StandsFor mask buffer f) : (v.spell buffer).length = v.depth := by
  rw [h.spell_eq, List.length_reverse, h.depth_eq]

/-- A visit stands for the same frame when the turn of a deeper one has come. -/
theorem spell (h : u.StandsFor mask buffer f) (hv : (v.spell buffer).length = v.depth)
    (hle : u.depth ≤ v.depth) (hu : u.symbol ≠ none) :
    u.StandsFor mask (v.spell buffer) f :=
  { h with spell_eq := (spell_spell hv hle hu).trans h.spell_eq }

/-- The visit of a child stands for the frame of the child. -/
theorem child (h : v.StandsFor mask buffer f) (room : Nat) {e : σ × StateId}
    (he : mask.all (·.allows v.depth e.1)) :
    StandsFor mask (v.spell buffer) ⟨e.2, v.depth + 1, some e.1⟩ (f.child room e) where
  state_eq := rfl
  depth_eq := by rw [Frame.child, List.length_cons, h.depth_eq]
  spell_eq := by
    rw [Frame.child, List.reverse_cons, ← h.spell_eq]
    show (v.spell buffer).take v.depth ++ [e.1] = _
    rw [List.take_of_length_le (Nat.le_of_eq h.length_spell)]
  places_eq := by rw [Frame.child, h.places_eq, List.tail_drop]
  depth_le := Pattern.lt_of_allows_ofMask he

end StandsFor

end Visit

/-! ## One visit -/

namespace Search

/-- The visits of the children along the edges that are allowed. -/
def children (mask : Option (Mask σ)) (depth : Nat) (x : State σ) : List (Visit σ) :=
  (x.edges.edges.filter fun e => mask.all (·.allows depth e.1)).map fun e =>
    ⟨e.2, depth + 1, some e.1⟩

/-- A visit puts the children on the stack, the first of them on top. -/
theorem foldl_push (mask : Option (Mask σ)) (depth : Nat) (rest : List (Visit σ)) (x : State σ) :
    x.edges.edges.reverse.foldl (push mask depth) rest = children mask depth x ++ rest := by
  unfold children
  induction x.edges.edges with
  | nil => rfl
  | cons e es ih =>
    rw [List.reverse_cons, List.foldl_append, ih, List.filter_cons]
    simp only [List.foldl_cons, List.foldl_nil, push]
    split <;> rfl

theorem of_mem_children (hu : u ∈ children mask n x) : u.depth = n + 1 ∧ u.symbol ≠ none := by
  obtain ⟨e, -, rfl⟩ := List.mem_map.1 hu
  exact ⟨rfl, nofun⟩

/-- The visits of the children stand for the frames of the children. -/
theorem forall₂_children (hv : v.StandsFor mask buffer f)
    (hfs : f.children (Pattern.ofMask mask).policy x = .ok fs) :
    List.Forall₂ (Visit.StandsFor mask (v.spell buffer)) (children mask v.depth x) fs := by
  have hallowed : f.allowed (Pattern.ofMask mask).policy x =
      x.edges.edges.filter fun e => mask.all (·.allows v.depth e.1) := by
    simp only [Frame.allowed, hv.places_eq, Pattern.allows_ofMask_drop]
  unfold children
  unfold Frame.children at hfs
  rw [← hallowed]
  split at hfs
  · split at hfs
    · next hnone =>
      cases hfs
      rw [List.isEmpty_iff.1 hnone]
      exact .nil
    · cases hfs
  · next room _ =>
    cases hfs
    rw [List.forall₂_map_left_iff, List.forall₂_map_right_iff, List.forall₂_same]
    intro e he
    rw [hallowed] at he
    exact hv.child room (List.mem_filter.1 he).2

/-- A search stands where a traversal with some frames stands. -/
structure Follows (t : Search σ) (frames : List (Frame σ)) : Prop where
  stands : List.Forall₂ (Visit.StandsFor t.mask t.buffer) t.stack frames
  deeper : t.stack.Pairwise fun v u => u.depth ≤ v.depth ∧ u.symbol ≠ none

/-- **A visit keeps a search where the traversal is**, and the buffer then holds the word on the way
to the state. -/
theorem Follows.turn (h : t.Follows (f :: frames)) (hx : a.get? f.state = some x)
    (hfs : f.children (Pattern.ofMask t.mask).policy x = .ok fs) :
    ∃ v rest t', t.stack = v :: rest ∧
      t.turn a v rest =
        .ok (x.isFinal && Pattern.endsAt (Pattern.ofMask t.mask).policy f.places, t') ∧
      t'.Follows (fs ++ frames) ∧ t'.mask = t.mask ∧ t'.buffer = f.spelled.reverse := by
  obtain ⟨v, rest, hv, hrest, hstack⟩ := List.forall₂_cons_right_iff.1 h.stands
  obtain ⟨hbelow, hdeeper⟩ := List.pairwise_cons.1 (hstack ▸ h.deeper)
  have hstate : a.state v.state = .ok x := state_eq_ok_iff.2 (hv.state_eq ▸ hx)
  refine ⟨v, rest, { t with
    stack := children t.mask v.depth x ++ rest, buffer := v.spell t.buffer }, hstack, ?_, ⟨?_, ?_⟩,
    rfl, hv.spell_eq⟩
  · unfold Search.turn
    rw [hstate, hv.places_eq, Pattern.endsAt_ofMask_drop hv.depth_le, ← foldl_push]
    rfl
  · -- the visits below are not deeper, so they find their part of the buffer as it was
    refine List.rel_append (forall₂_children hv hfs) ?_
    refine List.Forall₂.imp ?_ ((List.forall₂_and_left _ _).2 ⟨hbelow, hrest⟩)
    rintro u g ⟨⟨hle, hu⟩, hg⟩
    exact hg.spell hv.length_spell hle hu
  · refine List.pairwise_append.2 ⟨?_, hdeeper, fun u hu r hr => ?_⟩
    · refine List.pairwise_of_forall_mem_list fun u hu r hr => ?_
      obtain ⟨hu, -⟩ := of_mem_children hu
      obtain ⟨hr, hsome⟩ := of_mem_children hr
      exact ⟨by omega, hsome⟩
    · obtain ⟨hle, hsome⟩ := hbelow r hr
      obtain ⟨hu, -⟩ := of_mem_children hu
      exact ⟨by omega, hsome⟩

/-! ## The next word -/

/-- **A search hands out the word that the traversal hands out**, and stands where it stands then. -/
theorem Follows.nextWord {answer : Option (Word σ × List (Frame σ))} (h : t.Follows frames)
    (hn : Traversal.nextWord a (Pattern.ofMask t.mask).policy frames = .ok answer) :
    ∃ t', .ok (answer.map Prod.fst, t') ∈ t.nextWord a ∧ t'.mask = t.mask ∧
      t'.Follows (answer.elim [] Prod.snd) := by
  generalize hp : (Pattern.ofMask t.mask).policy = policy at hn
  fun_induction Traversal.nextWord a policy frames generalizing t with
  | case1 =>
    cases hn
    have hstack := List.forall₂_nil_right_iff.1 h.stands
    exact ⟨t, mem_nextWord_of_inl (by rw [step, hstack]; rfl), rfl, h⟩
  | case2 => cases hn
  | case3 => cases hn
  | case4 f frames x hx fs hfs hend =>
    cases hn
    subst hp
    obtain ⟨v, rest, t', hstack, hturn, hfollows, hmask, hbuffer⟩ := h.turn hx hfs
    refine ⟨t', mem_nextWord_of_inl ?_, hmask, hfollows⟩
    simp only [step, hstack, hturn, hend, hbuffer, Option.map_some]
  | case5 f frames x hx fs hfs hend ih =>
    subst hp
    obtain ⟨v, rest, t', hstack, hturn, hfollows, hmask, -⟩ := h.turn hx hfs
    obtain ⟨t'', hnext, hmask', hfollows'⟩ := ih hfollows (by rw [hmask]) hn
    refine ⟨t'', ?_, hmask'.trans hmask, hfollows'⟩
    have hstep : t.step a = .inr t' := by
      simp only [step, hstack, hturn, Bool.eq_false_iff.2 hend]
    rwa [nextWord_of_inr hstep]

/-! ## The words handed out -/

/-- A search that starts stands where the traversal for its mask starts. -/
theorem follows_start (a : Arena σ) (s : StateId) (mask : Option (Mask σ)) :
    Follows { all s with mask } (Traversal.start a s (.ofMask mask)).stack where
  stands := .cons ⟨rfl, rfl, rfl, rfl, fun _ => Nat.zero_le _⟩ .nil
  deeper := List.pairwise_singleton _ _

/-- A search hands out the words of a list if it keeps on doing so. -/
theorem HandsOut.of_invariant (inv : Nat → Search σ → Prop) (h : inv 0 t)
    (hstep : ∀ n t, inv n t → ∃ t', .ok (ws[n]?, t') ∈ t.nextWord a ∧ inv (n + 1) t') :
    t.HandsOut a ws := by
  choose! after hafter hinv using hstep
  let call : Nat → Search σ := Nat.rec t after
  have hcall : ∀ n, inv n (call n) := by
    intro n
    induction n with
    | zero => exact h
    | succ n ih => exact hinv n (call n) ih
  exact ⟨call, rfl, fun n => hafter n (call n) (hcall n)⟩

/-- **A search hands out the accepted words that fit its mask**, in order, and then nothing. -/
theorem handsOut_listing (h : a.Dag root) (mask : Option (Mask σ)) :
    HandsOut a { all root with mask } ((a.listing root).filter (Pattern.ofMask mask).accepts) := by
  let p := Pattern.ofMask mask
  let words := (a.listing root).filter p.accepts
  -- what has been handed out and what the traversal has left make up the list
  refine HandsOut.of_invariant (fun n t => t.mask = mask ∧ ∃ frames, t.Follows frames ∧
    (∀ f ∈ frames, f.Ready a) ∧ Traversal.wordsLeft a p.policy frames = words.drop n) ?_ ?_
  · exact ⟨rfl, _, follows_start a root mask, Traversal.ready_start h p,
      Traversal.wordsLeft_start a root p⟩
  · rintro n t ⟨rfl, frames, hfollows, hready, hleft⟩
    obtain ⟨answer, hn, hword, hrest, hleft'⟩ := Traversal.exists_nextWord p.policy hready
    obtain ⟨t', hnext, hmask, hfollows'⟩ := hfollows.nextWord hn
    refine ⟨t', ?_, hmask, _, hfollows', hrest, ?_⟩
    · rwa [hword, hleft, List.head?_drop] at hnext
    · rw [hleft', hleft, List.tail_drop]

/-- Asked for no less than all words, a search hands out the accepted words. -/
theorem handsOut_all (h : a.Dag root) : (all root).HandsOut a (a.listing root) := by
  have hall := handsOut_listing h none
  rwa [Pattern.ofMask, Option.elim_none, Lexicon.filter_any] at hall

/-- Asked for the words that fit a mask, it hands out those of them that do. -/
theorem handsOut_matching (h : a.Dag root) (m : Mask σ) :
    (matching root m).HandsOut a ((a.listing root).filter fun w => m.Fits w) := by
  rw [← m.filter_accepts_pattern]
  exact handsOut_listing h (some m)

end Search

/-! ## Enumeration -/

/-- A list enumerates the words accepted from a state. -/
structure Arena.Enumerates (a : Arena σ) (s : StateId) (ws : List (Word σ)) : Prop where
  mem_iff : ∀ w, w ∈ ws ↔ a.Accepts s w
  /-- The words are in lexicographic order, none of them twice. -/
  sorted : ws.Pairwise (· < ·)
  /-- Asked for word after word, a search comes to an answer each time: the words, then nothing. -/
  search_handsOut : (Search.all s).HandsOut a ws
  /-- A traversal hands out the same list. -/
  traversal_eq : (Traversal.start a s .any).words a = .ok ws

theorem Arena.Dag.enumerates (h : a.Dag root) : a.Enumerates root (a.listing root) where
  mem_iff _ := mem_listing_iff h
  sorted := sorted_listing a root
  search_handsOut := Search.handsOut_all h
  traversal_eq := by rw [Traversal.words_start h, Lexicon.filter_any]

/-- **The words accepted from a state are enumerated**, if the states in reach of it are all there and
lie on no cycle. So are the words of a lexicon. -/
theorem existsUnique_enumerates :
    (∀ (a : Arena σ) (s : StateId), a.Dag s → ∃! ws, a.Enumerates s ws) ∧
      ∀ l : Lexicon σ, l.Reachable → ∃! ws, l.words = .ok ws ∧ l.arena.Enumerates l.root ws := by
  refine ⟨fun a s h => ?_, fun l h => ?_⟩
  · exact ⟨_, h.enumerates, fun vs hvs => hvs.search_handsOut.unique h.enumerates.search_handsOut⟩
  · have hdag := h.valid.sound.dag_root
    exact ⟨_, ⟨Lexicon.words_eq hdag, hdag.enumerates⟩,
      fun vs hvs => hvs.2.search_handsOut.unique hdag.enumerates.search_handsOut⟩

/-- Two words of a closed lexicon go over the same state. They are enumerated from the start, and what
they have in common from that state. -/
theorem existsUnique_enumerates_of_two_words :
    ∃ l : Lexicon UInt8, l = (Lexicon.new 0).after [.add [1, 2], .add [3, 2], .close] ∧
      l.words = .ok [[1, 2], [3, 2]] ∧ l.arena.Enumerates l.root [[1, 2], [3, 2]] ∧
      ∃ t, l.arena.Edge l.root 1 t ∧ l.arena.Edge l.root 3 t ∧ l.arena.Enumerates t [[2]] := by
  obtain ⟨l, hl⟩ : ∃ l : Lexicon UInt8,
      l = (Lexicon.new 0).after [.add [1, 2], .add [3, 2], .close] := ⟨_, rfl⟩
  have hrun : (l.arena.target? l.root 1, l.arena.target? l.root 3, l.arena.listing l.root,
      l.arena.listing ⟨1⟩) = (.ok (some ⟨1⟩), .ok (some ⟨1⟩), [[1, 2], [3, 2]], [[2]]) := by
    subst hl
    cbv
  simp only [Prod.mk.injEq, target?_eq_ok_some_iff] at hrun
  obtain ⟨hone, hthree, hroot, hshared⟩ := hrun
  have hreach : l.Reachable := hl ▸ .after (.new 0) _
  have hdag := hreach.valid.sound.dag_root
  obtain ⟨ws, ⟨hwords, hws⟩, -⟩ := existsUnique_enumerates.2 l hreach
  obtain ⟨vs, hvs, -⟩ := existsUnique_enumerates.1 l.arena ⟨1⟩ (hdag.of_edge hone)
  rw [eq_listing hdag hws.sorted hws.mem_iff, hroot] at hwords hws
  rw [eq_listing (hdag.of_edge hone) hvs.sorted hvs.mem_iff, hshared] at hvs
  exact ⟨l, hl, hwords, hws, ⟨1⟩, hone, hthree, hvs⟩

namespace Lexicon

/-- **The words that fit a mask are those that a filter leaves of all words**, and come in the same
order, whatever the wildcard is. -/
theorem Reachable.finds {l : Lexicon σ} (h : l.Reachable) :
    ∃ ws, l.words = .ok ws ∧ (Search.all l.root).HandsOut l.arena ws ∧
      ∀ m : Mask σ, (l.find m.pattern).words l.arena = .ok (ws.filter fun w => m.Fits w) ∧
        (Search.matching l.root m).HandsOut l.arena (ws.filter fun w => m.Fits w) := by
  have hdag := h.valid.sound.dag_root
  refine ⟨_, words_eq hdag, Search.handsOut_all hdag, fun m => ⟨?_, ?_⟩⟩
  · rw [words_find hdag, m.filter_accepts_pattern]
  · exact Search.handsOut_matching hdag m

/-- In a lexicon to which words are still added, a mask has a letter of the words as its wildcard. -/
theorem finds_of_three_words :
    ∃ l : Lexicon UInt8, l = (new 0).after [.add [1, 3], .add [2], .add [2, 3]] ∧
      l.words = .ok [[1, 3], [2], [2, 3]] ∧
      (l.find (Mask.pattern ⟨[2, 3], 2, .exact⟩)).words l.arena = .ok [[1, 3], [2, 3]] ∧
      (Search.matching l.root ⟨[2, 3], 2, .exact⟩).HandsOut l.arena [[1, 3], [2, 3]] ∧
      (Search.matching l.root ⟨[2, 3], 2, .atMost⟩).HandsOut l.arena
        [[1, 3], [2], [2, 3]] := by
  obtain ⟨l, hl⟩ : ∃ l : Lexicon UInt8, l = (new 0).after [.add [1, 3], .add [2], .add [2, 3]] :=
    ⟨_, rfl⟩
  have hrun : l.arena.listing l.root = [[1, 3], [2], [2, 3]] := by
    subst hl
    cbv
  have hreach : l.Reachable := hl ▸ .after (.new 0) _
  obtain ⟨ws, hwords, -, hfinds⟩ := hreach.finds
  obtain rfl : ws = [[1, 3], [2], [2, 3]] := by
    rw [words_eq hreach.valid.sound.dag_root, hrun] at hwords
    exact (Except.ok.inj hwords).symm
  exact ⟨l, hl, hwords, (hfinds ⟨[2, 3], 2, .exact⟩).1, (hfinds ⟨[2, 3], 2, .exact⟩).2,
    (hfinds ⟨[2, 3], 2, .atMost⟩).2⟩

end Lexicon

end WordGraph
