import Mathlib.Data.List.Perm.Subperm
import Mathlib.Data.Set.Card
import WordGraph.Arena

/-!
# The slots of an arena

An arena is tidy if its list of free slots holds each slot without a state exactly once and its
count of states is right. Every operation keeps it so.

* `createWithin_spec` — a new state takes a slot that held none, and changes no other slot
* `createWithin_eq_error` — a state is refused only if there is a limit and every slot holds a state
* `Tidy.put`, `Tidy.delete` — changing and deleting states keep the arena tidy
* `Tidy.encard_isLive` — the states of a tidy arena are counted
-/

namespace WordGraph.Arena

variable {σ : Type} [Symbol σ] {a a' : Arena σ} {s t : StateId} {x : State σ}
  {limit : Option Nat} {isFinal : Bool}

theorem get?_eq_none_of_slot_le (h : a.slotCount ≤ s.slot) : a.get? s = none := by
  rw [get?, Array.getElem?_eq_none h]
  rfl

theorem isLive_of_get? (h : a.get? s = some x) : a.isLive s := isLive_iff.2 ⟨x, h⟩

/-- The free slots are listed once each, and the states are counted. -/
structure Tidy (a : Arena σ) : Prop where
  nodup : a.free.Nodup
  mem_free_iff : ∀ s, s ∈ a.free ↔ s.slot < a.slotCount ∧ a.get? s = none
  live_add : a.live + a.free.length = a.slotCount

/-- Different identifiers of slots below a bound are at most as many as the bound. -/
theorem length_le_of_nodup {ss : List StateId} {n : Nat} (hnd : ss.Nodup)
    (h : ∀ s ∈ ss, s.slot < n) : ss.length ≤ n := by
  have hmap : (ss.map StateId.slot).Nodup := by
    refine List.Pairwise.map StateId.slot (fun s t hne he => hne ?_) hnd
    cases s
    cases t
    exact congrArg StateId.mk he
  have hsub : ss.map StateId.slot ⊆ List.range n := by
    intro i hi
    obtain ⟨s, hs, rfl⟩ := List.mem_map.1 hi
    exact List.mem_range.2 (h s hs)
  simpa using (List.subperm_of_subset hmap hsub).length_le

/-- There are as many identifiers of slots below a bound as the bound. -/
theorem encard_slot_lt (n : Nat) : {s : StateId | s.slot < n}.encard = n := by
  have hset : {s : StateId | s.slot < n} = StateId.mk '' (Finset.range n : Set Nat) := by
    ext ⟨i⟩
    simp
  rw [hset, Function.Injective.encard_image fun i j h => congrArg StateId.slot h,
    Set.encard_coe_eq_coe_finsetCard, Finset.card_range]

namespace Tidy

/-- A living state leaves room for it beside the free slots. -/
theorem live_pos (h : a.Tidy) (hs : a.get? s = some x) : 0 < a.live := by
  have hnot : s ∉ a.free := by
    intro hmem
    have := ((h.mem_free_iff s).1 hmem).2
    rw [hs] at this
    cases this
  have hlen : (s :: a.free).length ≤ a.slotCount := by
    refine length_le_of_nodup (List.nodup_cons.2 ⟨hnot, h.nodup⟩) ?_
    intro t ht
    rcases List.mem_cons.1 ht with rfl | ht
    · exact slot_lt_of_get? hs
    · exact ((h.mem_free_iff t).1 ht).1
  have := h.live_add
  rw [List.length_cons] at hlen
  omega

/-- Changing a state keeps an arena tidy. -/
theorem put (h : a.Tidy) (hs : a.get? s = some x) (y : State σ) : (a.put s (some y)).Tidy where
  nodup := h.nodup
  mem_free_iff t := by
    rw [slotCount_put, get?_put (slot_lt_of_get? hs)]
    show t ∈ a.free ↔ _
    rw [h.mem_free_iff]
    by_cases ht : t = s
    · rw [if_pos ht, ht, hs]
      simp
    · rw [if_neg ht]
  live_add := by
    rw [slotCount_put]
    exact h.live_add

/-- Deleting a state keeps an arena tidy. -/
theorem delete (h : a.Tidy) (s : StateId) : (a.delete s).Tidy := by
  unfold Arena.delete
  by_cases hs : a.isLive s
  · rw [if_pos hs]
    obtain ⟨x, hx⟩ := isLive_iff.1 hs
    have hlt := slot_lt_of_get? hx
    have hnot : s ∉ a.free := by
      intro hmem
      have := ((h.mem_free_iff s).1 hmem).2
      rw [hx] at this
      cases this
    refine ⟨List.nodup_cons.2 ⟨hnot, h.nodup⟩, ?_, ?_⟩
    · intro t
      rw [slotCount_put, get?_put (a := { a with live := a.live - 1, free := s :: a.free }) hlt]
      show t ∈ s :: a.free ↔ t.slot < a.slotCount ∧ (if t = s then none else a.get? t) = none
      rw [List.mem_cons, h.mem_free_iff]
      by_cases ht : t = s
      · simp [ht, hlt]
      · simp [ht]
    · have hpos := h.live_pos hx
      have hadd := h.live_add
      rw [slotCount_put]
      show a.live - 1 + (a.free.length + 1) = a.slotCount
      omega
  · rw [if_neg hs]
    exact h

/-- A tidy arena has as many states as it says. -/
theorem encard_isLive (h : a.Tidy) : {s | a.isLive s}.encard = a.live := by
  have hfree : {s | s ∈ a.free}.encard = a.free.length := by
    rw [← List.coe_toFinset, Set.encard_coe_eq_coe_finsetCard, List.toFinset_card_of_nodup h.nodup]
  have hdisj : Disjoint {s | a.isLive s} {s | s ∈ a.free} := by
    rw [Set.disjoint_left]
    intro s hs hf
    obtain ⟨x, hx⟩ := isLive_iff.1 hs
    rw [((h.mem_free_iff s).1 hf).2] at hx
    cases hx
  have hunion : {s | a.isLive s} ∪ {s | s ∈ a.free} = {s | s.slot < a.slotCount} := by
    ext s
    simp only [Set.mem_union, Set.mem_ofPred_eq, h.mem_free_iff, isLive_iff]
    cases hs : a.get? s with
    | none => simp
    | some x => simp [slot_lt_of_get? hs]
  have hsum := Set.encard_union_eq hdisj
  rw [hunion, encard_slot_lt, hfree, ← h.live_add, Nat.cast_add] at hsum
  exact (WithTop.add_right_cancel (ENat.natCast_ne_top _) hsum).symm

end Tidy

/-! ## New states -/

/-- An arena with a state in a slot that was free. -/
theorem Tidy.reuse (h : a.Tidy) {u : StateId} {free : List StateId} (hf : a.free = u :: free)
    (x : State σ) (serial : Nat) :
    a.get? u = none ∧ Tidy ({ a with
        free := free, live := a.live + 1, nextSerial := serial }.put u (some x)) ∧
      ∀ t, ({ a with free := free, live := a.live + 1, nextSerial := serial }.put u
        (some x)).get? t = if t = u then some x else a.get? t := by
  obtain ⟨hlt, hnone⟩ := (h.mem_free_iff u).1 (by rw [hf]; exact List.mem_cons_self ..)
  have hnd := h.nodup
  rw [hf, List.nodup_cons] at hnd
  have hget := fun t => get?_put (a := { a with
    free := free, live := a.live + 1, nextSerial := serial }) (x := some x) (t := t) hlt
  refine ⟨hnone, ⟨hnd.2, ?_, ?_⟩, hget⟩
  · intro t
    rw [hget, slotCount_put]
    show t ∈ free ↔ t.slot < a.slotCount ∧ (if t = u then _ else a.get? t) = none
    have hiff := h.mem_free_iff t
    rw [hf, List.mem_cons] at hiff
    by_cases ht : t = u
    · simp [ht, hnd.1]
    · simpa [ht] using hiff
  · have hadd := h.live_add
    rw [hf, List.length_cons] at hadd
    rw [slotCount_put]
    show a.live + 1 + free.length = a.slotCount
    omega

/-- An arena with a state in a new slot. -/
theorem Tidy.push (h : a.Tidy) (hf : a.free = []) (x : State σ) (serial : Nat) :
    a.get? ⟨a.slots.size⟩ = none ∧ Tidy { a with
        slots := a.slots.push (some x), live := a.live + 1, nextSerial := serial } ∧
      ∀ t, ({ a with slots := a.slots.push (some x), live := a.live + 1, nextSerial := serial } :
        Arena σ).get? t = if t = ⟨a.slots.size⟩ then some x else a.get? t := by
  have hget : ∀ t, ({ a with
      slots := a.slots.push (some x), live := a.live + 1, nextSerial := serial } :
        Arena σ).get? t = if t = ⟨a.slots.size⟩ then some x else a.get? t := by
    intro t
    obtain ⟨i⟩ := t
    simp only [get?, Array.getElem?_push, StateId.mk.injEq]
    split <;> rfl
  refine ⟨get?_eq_none_of_slot_le (Nat.le_refl _), ⟨h.nodup, ?_, ?_⟩, hget⟩
  · intro t
    rw [hget]
    have hiff := h.mem_free_iff t
    show t ∈ a.free ↔ _
    rw [hf] at hiff ⊢
    simp only [List.not_mem_nil, false_iff] at hiff ⊢
    rintro ⟨hlt, hnone⟩
    have hsize : t.slot < a.slots.size + 1 := by simpa [slotCount] using hlt
    by_cases ht : t = ⟨a.slots.size⟩
    · simp [ht] at hnone
    · rw [if_neg ht] at hnone
      have hne : t.slot ≠ a.slots.size := fun he => ht (by cases t; exact congrArg _ he)
      exact hiff ⟨by show t.slot < a.slots.size; omega, hnone⟩
  · have hadd := h.live_add
    show a.live + 1 + a.free.length = (a.slots.push _).size
    rw [Array.size_push]
    have : a.live + a.free.length = a.slots.size := hadd
    omega

/-- A new state takes a slot that held none, and changes no other slot. -/
theorem createWithin_spec (h : a.Tidy) (hc : a.createWithin limit isFinal = .ok (s, a')) :
    a.get? s = none ∧ a'.Tidy ∧
      ∀ t, a'.get? t = if t = s then some ⟨a.nextSerial, isFinal, ∅⟩ else a.get? t := by
  unfold createWithin at hc
  cases hf : a.free with
  | cons u free =>
    simp only [hf, Except.ok.injEq, Prod.mk.injEq] at hc
    obtain ⟨rfl, rfl⟩ := hc
    exact h.reuse hf _ _
  | nil =>
    simp only [hf] at hc
    split at hc
    · simp only [Except.ok.injEq, Prod.mk.injEq] at hc
      obtain ⟨rfl, rfl⟩ := hc
      have hpush := h.push hf ⟨a.nextSerial, isFinal, ∅⟩ (a.nextSerial + 1)
      rwa [hf] at hpush
    · cases hc

/-- A state is refused only if there is a limit and every slot up to it holds a state. -/
theorem createWithin_eq_error (h : a.Tidy) {f : Fault}
    (hc : a.createWithin limit isFinal = .error f) :
    f = .arenaFull ∧ ∃ n ∈ limit, n ≤ a.live := by
  unfold createWithin at hc
  cases hf : a.free with
  | cons u free => simp [hf] at hc
  | nil =>
    simp only [hf] at hc
    split at hc
    · cases hc
    · next hsize =>
      have hadd := h.live_add
      rw [hf] at hadd
      have hall : a.live + 0 = a.slots.size := hadd
      simp only [Except.error.injEq] at hc
      refine ⟨hc.symm, ?_⟩
      by_contra hnone
      refine hsize fun n hn => ?_
      by_contra hle
      exact hnone ⟨n, hn, by omega⟩

theorem live_createWithin (hc : a.createWithin limit isFinal = .ok (s, a')) :
    a'.live = a.live + 1 := by
  unfold createWithin at hc
  split at hc
  · simp only [Except.ok.injEq, Prod.mk.injEq] at hc
    rw [← hc.2]
    rfl
  · split at hc
    · simp only [Except.ok.injEq, Prod.mk.injEq] at hc
      rw [← hc.2]
    · cases hc

end WordGraph.Arena
