import Mathlib
import WordGraph.Dump.Write
import WordGraph.Proofs.Lexicon.Building
import WordGraph.Proofs.Lexicon.Ghost

/-!
# The numbers that a lexicon keeps

A lexicon keeps the number of its words and the length of the longest one. An insertion that takes no
edge changes them by what the new word adds; one that takes an edge has them counted anew. Both come to
the same numbers, so they are right however the two have alternated.

A lexicon has no more words than were there when it was loaded or were added since, so the number stays
in range as long as these are less than 2^64. What is loaded may have 2^64 - 1 words in 64 states, and
one more word is too many.

* `Measured`, `Reachable.measured` — the numbers are right at any time
* `Traced.size_le` — no more words than were loaded or added
* `Valid.insert_eq_countOverflow_iff` — when a word is too much
* `Valid.exists_compute_eq_none` — the graph that it is added to has no numbering then
* `Counts`, `Traced.counts` — no word is too much before 2^64 - 1 words were loaded or added
* `countOverflow_of_load` — the dump of a lexicon for which one is
-/

namespace WordGraph

variable {σ : Type} [Symbol σ]

namespace Lexicon

open Arena Automaton

variable {l l' : Lexicon σ} {w v : Word σ} {isNew : Bool} {n : Nat}

/-! ## The numbers are right -/

/-- What a lexicon says of the number of its words and of the longest one is right. -/
structure Measured (l : Lexicon σ) : Prop where
  size_eq : {w | l.Holds w}.encard = l.size
  length_le : ∀ w, l.Holds w → w.length ≤ l.longest
  /-- The length of the longest word is 0 if there is no word. -/
  longest_eq : (∃ w, l.Holds w ∧ w.length = l.longest) ∨ (∀ w, ¬l.Holds w) ∧ l.longest = 0
  /-- Counting anew finds the same numbers. -/
  recount : ∃ n, l.recount.result = .ok { l with numbering? := some n }

/-- In a valid lexicon, counting anew changes nothing but that the numbering is remembered. -/
theorem Valid.recount_eq (h : l.Valid) :
    ∃ n, l.recount.result = .ok { l with numbering? := some n } := by
  have hlt := h.size_lt
  rw [h.size_eq] at hlt
  obtain ⟨size, longest, n, hrun, hsize, ⟨o, hlongest, hlen⟩, -⟩ :=
    recount_spec h.sound h.numbering hlt
  obtain ⟨o', hlongest', hlen'⟩ := h.longest
  have hsame : longest = l.longest := by
    rw [← hlen, ← hlen', hlongest.unique hlongest']
  rw [← h.size_eq] at hsize
  subst hsize hsame
  exact ⟨n, hrun⟩

/-- **The number of words and the length of the longest one are right** in every lexicon, whatever
operations have led to it. -/
theorem Reachable.measured (h : Reachable l) : Measured l where
  size_eq := h.valid.encard_holds
  length_le _ hw := h.valid.length_le hw
  longest_eq := h.valid.exists_length_eq
  recount := h.valid.recount_eq

/-- After 2 3 4 and 1, the word 2 takes the edge of 2 3 4. The longest word is shorter then. -/
theorem measured_of_three_words :
    ∃ l : Lexicon UInt8, Reachable l ∧ l.size = 2 ∧ l.longest = 1 ∧ Measured l := by
  have hrun : (fun r => (r.2.size, r.2.longest)) <$>
      (((new 0 : Lexicon UInt8).addUnchecked [2, 3, 4]).result >>= fun r =>
        (r.2.addUnchecked [1]).result >>= fun r => (r.2.addUnchecked [2]).result) =
      .ok (2, 1) := by cbv
  obtain ⟨⟨isNew, l⟩, h, hl⟩ := map_eq_ok_iff.1 hrun
  obtain ⟨⟨b, l₁⟩, h₁, h⟩ := bind_eq_ok_iff.1 h
  obtain ⟨⟨b', l₂⟩, h₂, h₃⟩ := bind_eq_ok_iff.1 h
  have hreach : Reachable l :=
    .step (.step (.step (.new 0) (.addUnchecked h₁)) (.addUnchecked h₂)) (.addUnchecked h₃)
  obtain ⟨hsize, hlong⟩ := Prod.mk.inj hl
  exact ⟨l, hreach, hsize, hlong, Reachable.measured hreach⟩

/-! ## As many words as insertions -/

/-- An insertion makes one word more at most. -/
theorem Inserted.size_le (h : Inserted l w isNew l') (hl : l.Valid) : l'.size ≤ l.size + 1 := by
  have hsub : {v | l'.Holds v} ⊆ {v | l.Holds v} ∪ {w} := by
    intro v hv
    rcases (h.holds_iff v).1 hv with rfl | ⟨hv, -⟩
    · exact .inr rfl
    · exact .inl hv
  have hle := (Set.encard_le_encard hsub).trans (Set.encard_union_le _ _)
  rw [h.valid.encard_holds, hl.encard_holds, Set.encard_singleton] at hle
  exact_mod_cast hle

/-- Closing keeps the number of words. -/
theorem Shut.size_eq (h : Shut l l') (hl : l.Valid) : l'.size = l.size := by
  have hset : {v | l'.Holds v} = {v | l.Holds v} := Set.ext h.holds_iff
  have heq := h.valid.encard_holds
  rw [hset, hl.encard_holds] at heq
  exact_mod_cast heq.symm

/-- A loaded lexicon has as many words as its dump says. -/
theorem size_of_ofContents {identity : Nat} {k : Dump.Contents σ}
    (h : (ofContents identity k).result = .ok l) : l.size = k.words := by
  obtain ⟨a, order, num, lengths, path, register, -, -, -, -, -, -, -, -, -, rfl⟩ :=
    ofContents_eq_ok_iff.1 h
  rfl

/-- **A lexicon has no more words than were loaded or added.** -/
theorem Traced.size_le (h : Traced .insertions l n) : l.size ≤ n := by
  refine h.invariant (I := fun l n => l.size ≤ n) ?_ ?_ ?_ ?_ ?_
  · intro l hl hauto
    rw [hl.size_eq, Lexicon.arena, Lexicon.root, hauto]
    exact Nat.le_refl 0
  · intro identity k l _ hload
    exact Nat.le_of_eq (size_of_ofContents hload)
  · intro l n w isNew l' hl hle hins
    exact Nat.le_trans (hins.size_le hl) (Nat.succ_le_succ hle)
  · intro l n l' hl hle hshut
    rw [hshut.size_eq hl]
    exact hle
  · intro l n l' hle _ hsize _
    rw [hsize]
    exact hle

/-! ## A word too many -/

/-- Where a word is too much, there are as many words as can be counted, it is none of them, and it
takes no edge. -/
theorem Valid.of_countOverflow (h : l.Valid) (hl : l.lifecycle ≠ .closed)
    (hr : (l.insert w).result = .error (.fault .countOverflow)) :
    l.size + 1 = countLimit ∧ ¬l.Holds w ∧
      ∀ v, l.Holds v → ¬Displaces l.automaton.lastWord w v := by
  rcases h.insert_error hl hr with ⟨he, -⟩ | ⟨-, hnew, hkeep, hsize⟩
  · cases he
  · exact ⟨hsize, hnew, hkeep⟩

/-- **A word is too much just if there are as many words as can be counted, it is none of them, and it
takes no edge.** -/
theorem Valid.insert_eq_countOverflow_iff (h : l.Valid) (hl : l.lifecycle ≠ .closed)
    (hroom : l.stateCount + w.length ≤ slotLimit) :
    (l.insert w).result = .error (.fault .countOverflow) ↔
      l.size + 1 = countLimit ∧ ¬l.Holds w ∧
        ∀ v, l.Holds v → ¬Displaces l.automaton.lastWord w v := by
  refine ⟨h.of_countOverflow hl, ?_⟩
  rintro ⟨hsize, hnew, hkeep⟩
  cases hr : (l.insert w).result with
  | error e =>
    rcases h.insert_error hl hr with ⟨-, -, hfull⟩ | ⟨rfl, -⟩
    · exact absurd hroom (Nat.not_le_of_lt hfull)
    · rfl
  | ok r =>
    -- the word would be one more, and there are as many as there can be
    obtain ⟨isNew, l'⟩ := r
    have hins := h.insert_ok hl hr
    have hmore : (l'.arena.listing l'.root).length = (l.arena.listing l.root).length + 1 := by
      refine length_listing_of_new h.sound.dag_root hins.valid.sound.dag_root hnew fun v => ?_
      exact (hins.holds_iff v).trans (or_congr_right (and_iff_left_of_imp (hkeep v)))
    have hlt := hins.valid.size_lt
    rw [hins.valid.size_eq, hmore, ← h.size_eq, hsize] at hlt
    exact absurd hlt (Nat.lt_irrefl _)

/-- **Where a word is too much, the graph that it was added to has no numbering.** -/
theorem Valid.exists_compute_eq_none (h : l.Valid) (hl : l.lifecycle ≠ .closed)
    (hr : (l.insert w).result = .error (.fault .countOverflow)) :
    ∃ g i ms, l.automaton.add w = .ok (g, i, ms) ∧
      Numbering.compute g.arena g.root = .ok none := by
  obtain ⟨hsize, hnew, hkeep⟩ := h.of_countOverflow hl hr
  rw [insert, insertWithin_eq, ← Automaton.add] at hr
  cases hadd : l.automaton.add w with
  | error f =>
    -- a graph that is not grown at all lacks slots
    simp only [hadd, Run.result_bind, Run.result_liftM_error, error_bind] at hr
    obtain ⟨rfl, -⟩ := (h.growing hl).addWithin_error hadd
    cases hr
  | ok made =>
    obtain ⟨g, i, ms⟩ := made
    have hg := (h.growing hl).add_ok hadd
    refine ⟨g, i, ms, rfl, Numbering.compute_eq_none hg.growing.toSound.dag_root ?_⟩
    rw [length_listing_of_new h.sound.dag_root hg.growing.toSound.dag_root hnew fun v => ?_,
      ← h.size_eq, hsize]
    rw [hg.root_eq, hg.accepts_iff]
    exact or_congr_right (and_iff_left_of_imp (hkeep v))

/-- The words of a lexicon that came about with `n` words loaded or added can be counted, and there is
room for one more as long as `n` has not reached the limit. -/
structure Counts (l : Lexicon σ) (n : Nat) : Prop where
  size_le : l.size ≤ n
  compute : ∃ num, Numbering.compute l.arena l.root = .ok (some num) ∧ num.count l.root = l.size
  numbering : ∃ num, l.numbering.result = .ok (num, { l with numbering? := some num })
  add : n + 1 < countLimit → ∀ w, (l.add w).result ≠ .error (.fault .countOverflow)
  addUnchecked : n + 1 < countLimit → ∀ w,
    (l.addUnchecked w).result ≠ .error (.fault .countOverflow)

/-- **The number of words stays in range as long as fewer than 2^64 - 1 words were loaded or added**,
and there is a numbering at any time. -/
theorem Traced.counts (h : Traced .insertions l n) : Counts l n := by
  have hvalid := h.reachable.valid
  have hle := h.size_le
  obtain ⟨num, hrun, hcomp, hcount⟩ := hvalid.numbering_spec
  have hfit : n + 1 < countLimit → l.size + 1 ≠ countLimit := by omega
  refine ⟨hle, ⟨num, hcomp, ?_⟩, ⟨num, hrun⟩, fun hn w hr => ?_, fun hn w hr => ?_⟩
  · rw [hcount l.root (.refl _), hvalid.size_eq]
  · obtain ⟨hl, hins⟩ := insert_of_add_fault hr
    exact hfit hn (hvalid.of_countOverflow hl hins).1
  · obtain ⟨hl, hins⟩ := insert_of_addUnchecked_fault hr
    exact hfit hn (hvalid.of_countOverflow hl hins).1

/-- Two words are loaded, and a third takes the edge of one of them: two words are left of three. -/
theorem counts_of_load :
    ∃ (l₀ l l' m : Lexicon UInt8) (bs : Bytes),
      l₀ = (new 0).after [.addUnchecked [2, 3], .addUnchecked [1, 3]] ∧ l₀.dump.result = .ok (bs, m) ∧
      (load 1 bs).result = .ok l ∧ (l.add [2, 4]).result = .ok (true, l') ∧ l.size = 2 ∧
      l'.size = 2 ∧ Counts l 2 ∧ Counts l' 3 := by
  obtain ⟨l₀, hl₀⟩ : ∃ l₀ : Lexicon UInt8,
      l₀ = (new 0).after [.addUnchecked [2, 3], .addUnchecked [1, 3]] := ⟨_, rfl⟩
  have hrun : (fun r => (r.1.size, r.2.1, r.2.2.size)) <$> (l₀.dump.result >>= fun r₀ =>
      (load (σ := UInt8) 1 r₀.1).result >>= fun l => (fun r => (l, r)) <$> (l.add [2, 4]).result) =
        .ok (2, true, 2) := by
    subst hl₀
    cbv
  obtain ⟨⟨l, b, l'⟩, h, he⟩ := map_eq_ok_iff.1 hrun
  obtain ⟨⟨bs, m⟩, hdump, h⟩ := bind_eq_ok_iff.1 h
  obtain ⟨l, hload, h⟩ := bind_eq_ok_iff.1 h
  obtain ⟨r, hadd, h⟩ := map_eq_ok_iff.1 h
  cases h
  simp only [Prod.mk.injEq] at he
  obtain ⟨hsize, rfl, hsize'⟩ := he
  obtain ⟨k, hk, -, -, hof⟩ := exists_contents_of_load hload
  have htraced : Traced .insertions l 2 := by
    rw [← hsize, size_of_ofContents hof]
    exact .load hk hload
  exact ⟨l₀, l, l', m, bs, hl₀, hdump, hload, hadd, hsize, hsize', Traced.counts htraced,
    Traced.counts (.add htraced hadd)⟩

end Lexicon

/-! ## As many words as can be counted -/

namespace Dump

/-- The dump of the words of at most `n` symbols out of 1 and 2, of which the empty one was added last.
Each of its nodes but the last has two edges to the next. -/
def wordsUpTo (n : Nat) : Contents UInt8 where
  lifecycle := .active
  words := 2 ^ (n + 1) - 1
  longest := n
  frontier := []
  nodes := (List.range (n + 1)).map fun i => ⟨true, 2 ^ (n + 1 - i) - 1⟩
  edges := (List.range n).flatMap fun i => [⟨i, 1, i + 1⟩, ⟨i, 2, i + 1⟩]

/-- The edges of a node lead to the next one. -/
theorem mem_edges_wordsUpTo {n : Nat} {e : Edge UInt8} (h : e ∈ (wordsUpTo n).edges) :
    e.source < n ∧ e.target = e.source + 1 := by
  simp only [wordsUpTo, List.mem_flatMap, List.mem_range] at h
  obtain ⟨i, hi, he⟩ := h
  simp only [List.mem_cons, List.not_mem_nil, or_false] at he
  rcases he with rfl | rfl <;> exact ⟨hi, rfl⟩

/-- The dump can be written as long as the words can be counted. -/
theorem wellFormed_wordsUpTo {n : Nat} (hn : n < 64) : (wordsUpTo n).WellFormed := by
  have hpow : ∀ i, 2 ^ (n + 1 - i) - 1 < range 8 := by
    intro i
    have hle : 2 ^ (n + 1 - i) ≤ 2 ^ 64 := Nat.pow_le_pow_right (by decide) (by omega)
    have hpos : 0 < 2 ^ (n + 1 - i) := Nat.two_pow_pos _
    have hrange : range 8 = 2 ^ 64 := by decide
    omega
  have hrange : range 4 = 2 ^ 32 := by decide
  have hnodes : (wordsUpTo n).nodes.length = n + 1 := by simp [wordsUpTo]
  have hedges : (wordsUpTo n).edges.length = n * 2 := by simp [wordsUpTo]
  refine ⟨fun e he => ?_, ?_, fun hnil => ?_, fun _ => rfl, fun node hm => ?_, ?_⟩
  · obtain ⟨hsource, htarget⟩ := mem_edges_wordsUpTo he
    rw [hnodes]
    omega
  · refine List.pairwise_flatMap.2 ⟨fun i _ => ?_, List.pairwise_lt_range.imp fun {i j} hij => ?_⟩
    · exact List.pairwise_pair.2 (.inr ⟨rfl, show (1 : UInt8) < 2 by decide⟩)
    · intro e he e' he'
      simp only [List.mem_cons, List.not_mem_nil, or_false] at he he'
      left
      rcases he with rfl | rfl <;> rcases he' with rfl | rfl <;> exact hij
  · rw [hnil] at hnodes
    cases hnodes
  · obtain ⟨i, -, rfl⟩ := List.mem_map.1 hm
    exact hpow i
  · refine ⟨hpow 0, ?_, ?_, ?_, show 0 < range 4 by decide⟩
    · show n < _
      omega
    · show (wordsUpTo n).nodes.length < _
      omega
    · show (wordsUpTo n).edges.length < _
      omega

/-- The arena that the dump describes. -/
def arenaUpTo (n : Nat) : Arena UInt8 :=
  let table (i : Nat) : EdgeTable UInt8 :=
    if i < n then ((∅ : EdgeTable UInt8).set 1 ⟨i + 1⟩).set 2 ⟨i + 1⟩ else ∅
  ⟨((List.range (n + 1)).map fun i => some ⟨i, true, table i⟩).toArray, [], n + 1, n + 1⟩

/-- The order in which a search leaves the states. -/
def orderUpTo (n : Nat) : List StateId := (List.range (n + 1)).reverse.map StateId.mk

/-- The counts that the dump has. -/
def numberingUpTo (n : Nat) : Numbering :=
  ⟨((wordsUpTo n).nodes.map Node.count).toArray, n + 1⟩

/-- The counts have the number of words. -/
theorem count_numberingUpTo (n : Nat) : (numberingUpTo n).count ⟨0⟩ = (wordsUpTo n).words := by
  simp [numberingUpTo, wordsUpTo, Numbering.count, Numbering.countAt]

/-! With 63 symbols, the checks of a dump are passed one after the other. Each is run by itself, as all
at once are more than one step of a proof can run. -/

section

set_option maxRecDepth 4096

theorem arena_wordsUpTo : (wordsUpTo 63).arena = .ok (arenaUpTo 63) := by cbv

theorem checkGraph_arenaUpTo : checkGraph (arenaUpTo 63) = .ok (orderUpTo 63) := by cbv

theorem compute_arenaUpTo :
    Numbering.compute (arenaUpTo 63) ⟨0⟩ = .ok (some (numberingUpTo 63)) := by cbv

theorem checkCounts_wordsUpTo :
    checkCounts (numberingUpTo 63) 0 (wordsUpTo 63).nodes = .ok () := by cbv

theorem longestPaths_arenaUpTo : (fun lengths => (lengths[0]?.join).getD 0) <$>
    (arenaUpTo 63).longestPaths (orderUpTo 63) = .ok 63 := by cbv

theorem path_wordsUpTo : (wordsUpTo 63).path (arenaUpTo 63) = .ok [] := by cbv

theorem registerAll_arenaUpTo : (fun _ => ()) <$> registerAll (arenaUpTo 63)
    (marked (arenaUpTo 63).slotCount ((wordsUpTo 63).setApart [])) (orderUpTo 63) = .ok () := by cbv

end

end Dump

namespace Lexicon

open Dump

/-- The lexicon that the dump describes, but for its register. -/
def upTo (n : Nat) (register : Register UInt8) : Lexicon UInt8 :=
  ofAutomaton 0 ⟨arenaUpTo n, register, ⟨0⟩, []⟩ (wordsUpTo n).words n .active

/-- The dump is loaded, though not one word more could be counted. -/
theorem exists_load_wordsUpTo :
    ∃ register, (load 0 (wordsUpTo 63).bytes).result = .ok (upTo 63 register) := by
  obtain ⟨lengths, hlengths, hlength⟩ := map_eq_ok_iff.1 longestPaths_arenaUpTo
  obtain ⟨register, hregister, -⟩ := map_eq_ok_iff.1 registerAll_arenaUpTo
  have hread : Contents.ofBytes (wordsUpTo 63).bytes = .ok (wordsUpTo 63) :=
    Contents.ofBytes_eq_ok_iff.2 ⟨wellFormed_wordsUpTo (by decide), rfl⟩
  refine ⟨register, ?_⟩
  unfold load
  rw [Run.result_bind, bind_eq_ok_iff]
  refine ⟨wordsUpTo 63, Run.result_liftM_format_eq_ok_iff.2 hread, ?_⟩
  exact ofContents_eq_ok_iff.2 ⟨_, _, _, _, _, _, arena_wordsUpTo, checkGraph_arenaUpTo,
    compute_arenaUpTo, checkCounts_wordsUpTo, count_numberingUpTo 63, hlengths, hlength,
    path_wordsUpTo, hregister, rfl⟩

/-- **A lexicon with 2^64 - 1 words is loaded, and a word more is too much** for it. The graph that the
word is added to has no numbering. -/
theorem countOverflow_of_load :
    ∃ l : Lexicon UInt8, (load 0 (wordsUpTo 63).bytes).result = .ok l ∧ l.lifecycle = .active ∧
      l.size = countLimit - 1 ∧ l.stateCount = 64 ∧
      (l.add [3]).result = .error (.fault .countOverflow) ∧
      ∃ g i ms, l.automaton.add [3] = .ok (g, i, ms) ∧
        Numbering.compute g.arena g.root = .ok none := by
  obtain ⟨register, hload⟩ := exists_load_wordsUpTo
  have hsize : (upTo 63 register).size = countLimit - 1 := by cbv
  have hadd : ((upTo 63 register).add [3]).result = .error (.fault .countOverflow) := by cbv
  obtain ⟨hl, hins⟩ := insert_of_add_fault hadd
  exact ⟨_, hload, rfl, hsize, rfl, hadd, (valid_of_load hload).exists_compute_eq_none hl hins⟩

end Lexicon

end WordGraph
