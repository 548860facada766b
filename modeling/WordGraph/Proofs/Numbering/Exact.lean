import WordGraph.Numbering.Checked
import WordGraph.Proofs.Arena.Longest
import WordGraph.Proofs.Arena.Orders
import WordGraph.Proofs.Numbering.Count
import WordGraph.Proofs.Run

/-!
# What is known of the accepted words, slot by slot

In a graph without cycles the counts of a numbering and the lengths of the longest words are told by
the sets of accepted words alone. A search lists the states in reach and no other slot, so every other
slot keeps what it had at first: no words, and no longest word.

* `countAt_of_countAll`, `getElem?_of_longestPaths` — slots that are not listed
* `Tallied`, `Dag.exists_tallied` — what a numbering and the lengths tell
-/

namespace WordGraph.Arena

open WordGraph.Numbering

variable {σ : Type} [Symbol σ] {a : Arena σ} {root s t : StateId} {x : State σ}
  {order : List StateId} {counts counts' : Array Nat} {lengths lengths' : Array (Option Nat)}

/-! ## Slots that are not listed -/

/-- Counting the states of a list leaves the other counts as they are. -/
theorem countAt_of_countAll (h : countAll a counts order = .ok (some counts')) (hs : s ∉ order)
    (hsize : counts.size = a.slotCount) : countAt counts' s = countAt counts s := by
  induction order generalizing counts with
  | nil =>
    cases h
    rfl
  | cons t order ih =>
    obtain ⟨hst, hs⟩ := not_or.1 (mt List.mem_cons.2 hs)
    rw [countAll] at h
    obtain ⟨x, hx, h⟩ := bind_eq_ok_iff.1 h
    have ht := slot_lt_of_get? (state_eq_ok_iff.1 hx)
    rw [← hsize] at ht
    dsimp only at h
    split at h
    · rw [ih h hs (by rw [Array.size_setIfInBounds, hsize]), countAt_setIfInBounds _ _ _ _ ht,
        if_neg hst]
    · cases h

/-- Finding the lengths for the states of a list leaves the other lengths as they are. -/
theorem getElem?_of_foldlM_longestFrom
    (h : order.foldlM (fun lengths s => do
      return lengths.setIfInBounds s.slot (longestFrom lengths (← a.state s))) lengths =
        .ok lengths') :
    lengths'.size = lengths.size ∧ ∀ s ∉ order, lengths'[s.slot]? = lengths[s.slot]? := by
  induction order generalizing lengths with
  | nil =>
    cases h
    exact ⟨rfl, fun _ _ => rfl⟩
  | cons t order ih =>
    rw [List.foldlM_cons] at h
    obtain ⟨next, hnext, h⟩ := bind_eq_ok_iff.1 h
    obtain ⟨x, -, hnext⟩ := bind_eq_ok_iff.1 hnext
    cases hnext
    obtain ⟨hsize, hrest⟩ := ih h
    refine ⟨hsize.trans Array.size_setIfInBounds, fun s hs => ?_⟩
    obtain ⟨hst, hs⟩ := not_or.1 (mt List.mem_cons.2 hs)
    rw [hrest s hs, Array.getElem?_setIfInBounds_ne (slot_ne hst).symm]

/-- A slot out of reach has no words. -/
theorem Dag.count_eq_zero {num : Numbering} (h : a.Dag root) (hn : compute a root = .ok (some num))
    (hs : ¬a.Reaches root s) : num.count s = 0 := by
  obtain ⟨order, hpost, htop⟩ := h.exists_postorder
  unfold compute at hn
  rw [hpost, ok_bind] at hn
  obtain ⟨counts?, hcounts, hn⟩ := bind_eq_ok_iff.1 hn
  obtain ⟨counts, rfl, rfl⟩ := Option.map_eq_some_iff.1 (Except.ok.inj hn)
  show countAt counts s = 0
  rw [countAt_of_countAll hcounts (fun hm => hs (htop.mem_iff.1 hm)) Array.size_replicate, countAt,
    Array.getElem?_replicate]
  split <;> rfl

/-- The lengths of the longest words that are accepted from the states in reach are found by slot. -/
theorem Dag.exists_longestPaths (h : a.Dag root) :
    ∃ order lengths, a.postorder root = .ok ⟨order, true⟩ ∧ a.longestPaths order = .ok lengths ∧
      lengths.size = a.slotCount ∧
      (∀ s, a.Reaches root s → ∃ o, lengths[s.slot]? = some o ∧ Longest (a.Accepts s) o) ∧
      ∀ i < a.slotCount, ¬a.Reaches root ⟨i⟩ → lengths[i]? = some none := by
  obtain ⟨order, hpost, htop⟩ := h.exists_postorder
  obtain ⟨lengths, hrun, hlong⟩ :=
    htop.longestPaths_spec fun s hs => h.intact s (htop.mem_iff.1 hs)
  obtain ⟨hsize, hrest⟩ := getElem?_of_foldlM_longestFrom hrun
  rw [Array.size_replicate] at hsize
  refine ⟨order, lengths, hpost, hrun, hsize, fun s hs => ?_, fun i hi hs => ?_⟩
  · obtain ⟨x, hx⟩ := isLive_iff.1 (h.intact s hs)
    have hlt := slot_lt_of_get? hx
    rw [← hsize] at hlt
    have hspec := hlong s (htop.mem_iff.2 hs)
    rw [Array.getElem?_eq_getElem hlt] at hspec
    exact ⟨lengths[s.slot], Array.getElem?_eq_getElem hlt, hspec⟩
  · rw [hrest ⟨i⟩ fun hm => hs (htop.mem_iff.1 hm), Array.getElem?_replicate, if_pos hi]

/-! ## What is told of each slot -/

/-- A numbering and a table of lengths tell, slot by slot, how many words are accepted and how long the
longest one is. There is no numbering if the start accepts more words than a count can tell. -/
structure Tallied (a : Arena σ) (root : StateId) (num? : Option Numbering)
    (lengths : Array (Option Nat)) : Prop where
  compute_eq : compute a root = .ok num?
  computeChecked_eq : computeChecked a root = .ok num?
  eq_none_iff : num? = none ↔ ((2 ^ 64 - 1 : Nat) : ℕ∞) < {w | a.Accepts root w}.encard
  size_counts : ∀ num ∈ num?, num.counts.size = a.slotCount
  count_eq : ∀ num ∈ num?, ∀ s, a.Reaches root s → {w | a.Accepts s w}.encard = num.count s
  count_eq_zero : ∀ num ∈ num?, ∀ s, ¬a.Reaches root s → num.count s = 0
  longestPaths_eq : ∃ order, a.postorder root = .ok ⟨order, true⟩ ∧
    a.longestPaths order = .ok lengths
  size_lengths : lengths.size = a.slotCount
  longest : ∀ s, a.Reaches root s → ∃ o, lengths[s.slot]? = some o ∧ Longest (a.Accepts s) o
  longest_eq_none : ∀ i < a.slotCount, ¬a.Reaches root ⟨i⟩ → lengths[i]? = some none

/-- **In a graph without cycles the counts and the lengths are exact.** -/
theorem Dag.exists_tallied (h : a.Dag root) : ∃ num? lengths, a.Tallied root num? lengths := by
  obtain ⟨order, lengths, hpost, hrun, hsize, hlong, hnone⟩ := h.exists_longestPaths
  have hlimit : ((2 ^ 64 - 1 : Nat) : ℕ∞) < {w | a.Accepts root w}.encard ↔
      countLimit ≤ (a.listing root).length := by
    rw [encard_accepts h, Nat.cast_lt]
    exact Nat.lt_iff_add_one_le
  obtain ⟨num?, hcompute, hiff, hcount⟩ : ∃ num?, compute a root = .ok num? ∧
      (num? = none ↔ countLimit ≤ (a.listing root).length) ∧
      ∀ num ∈ num?, ∀ s, a.Reaches root s → num.count s = (a.listing s).length := by
    rcases compute_spec h with ⟨hcompute, hle⟩ | ⟨num, hcompute, hlt, hcount⟩
    · exact ⟨none, hcompute, by simp [hle], nofun⟩
    · refine ⟨some num, hcompute, by simpa using hlt, fun n hn => ?_⟩
      obtain rfl := Option.mem_some_iff.1 hn
      exact hcount
  refine ⟨num?, lengths, {
    compute_eq := hcompute
    computeChecked_eq := by rw [Numbering.computeChecked_eq, hcompute]
    eq_none_iff := hiff.trans hlimit.symm
    size_counts := ?_
    count_eq := fun num hn s hs => ?_
    count_eq_zero := ?_
    longestPaths_eq := ⟨order, hpost, hrun⟩
    size_lengths := hsize
    longest := hlong
    longest_eq_none := hnone }⟩
  · rintro num rfl
    exact size_of_compute hcompute
  · rw [encard_accepts (h.of_reaches hs), hcount num hn s hs]
  · rintro num rfl s hs
    exact h.count_eq_zero hcompute hs

/-- Three words from the start, by a shared state and one that no word leads on from, and besides a free
slot and a state out of reach. -/
def fork : Arena UInt8 :=
  ⟨#[some ⟨0, false, ⟨[(1, ⟨1⟩), (2, ⟨2⟩), (3, ⟨3⟩)], by decide⟩⟩,
    some ⟨1, true, ⟨[(4, ⟨2⟩)], by decide⟩⟩, some ⟨2, true, ∅⟩, some ⟨3, false, ∅⟩, none,
    some ⟨4, true, ⟨[(1, ⟨0⟩)], by decide⟩⟩], [⟨4⟩], 5, 5⟩

theorem postorder_fork : fork.postorder ⟨0⟩ = .ok ⟨[⟨2⟩, ⟨1⟩, ⟨3⟩, ⟨0⟩], true⟩ := by cbv

theorem fork_tallied :
    fork.Tallied ⟨0⟩ (some ⟨#[3, 2, 1, 0, 0, 0], 4⟩)
      #[some 2, some 1, some 0, none, none, none] := by
  obtain ⟨num?, lengths, h⟩ := Dag.exists_tallied
    ⟨.of_slots (by decide) (by decide), (topological_of_postorder postorder_fork).acyclic⟩
  have hcompute : compute fork ⟨0⟩ = .ok (some ⟨#[3, 2, 1, 0, 0, 0], 4⟩) := by cbv
  have hlengths : fork.longestPaths [⟨2⟩, ⟨1⟩, ⟨3⟩, ⟨0⟩] =
      .ok #[some 2, some 1, some 0, none, none, none] := by cbv
  obtain ⟨order, hpost, hrun⟩ := h.longestPaths_eq
  cases Except.ok.inj (hpost.symm.trans postorder_fork)
  cases Except.ok.inj (hrun.symm.trans hlengths)
  cases Except.ok.inj (h.compute_eq.symm.trans hcompute)
  exact h

end WordGraph.Arena
