import WordGraph.Arena.History
import WordGraph.Proofs.Arena.Edge

/-!
# What operations on an arena keep

Slots are freed and given to new states, serials are not: each new state has a serial that no other
state has had. So whatever operations have led to an arena, its slots are kept in order, none lies
beyond what identifiers can name, and no two of its states have one serial.

* `Step.tidy`, `Step.slotCount_le`, `Step.stamped` — what one operation keeps
* `Steps.tidy`, `Steps.slotCount_le`, `Steps.stamped` — what holds of any arena
-/

namespace WordGraph.Arena

variable {σ : Type} [Symbol σ] {a a' : Arena σ} {s : StateId} {isFinal : Bool}

/-! ## New states -/

/-- A new state takes a slot that held none and the next serial, and changes no other slot. -/
theorem create_spec (h : a.Tidy) (hc : a.create isFinal = .ok (s, a')) :
    a.get? s = none ∧ a'.Tidy ∧
      ∀ t, a'.get? t = if t = s then some ⟨a.nextSerial, isFinal, ∅⟩ else a.get? t :=
  createWithin_spec h hc

theorem nextSerial_of_create (h : a.create isFinal = .ok (s, a')) :
    a'.nextSerial = a.nextSerial + 1 := by
  unfold create createWithin at h
  cases hf : a.free with
  | cons u free =>
    simp only [hf, Except.ok.injEq, Prod.mk.injEq] at h
    rw [← h.2]
    rfl
  | nil =>
    simp only [hf] at h
    split at h
    · simp only [Except.ok.injEq, Prod.mk.injEq] at h
      rw [← h.2]
    · cases h

/-- A new state takes a free slot, or a new slot that has an identifier. -/
theorem slotCount_of_create (ha : a.slotCount ≤ slotLimit) (h : a.create isFinal = .ok (s, a')) :
    a'.slotCount ≤ slotLimit := by
  unfold create createWithin at h
  cases hf : a.free with
  | cons u free =>
    simp only [hf, Except.ok.injEq, Prod.mk.injEq] at h
    rw [← h.2, slotCount_put]
    exact ha
  | nil =>
    simp only [hf] at h
    split at h
    · next hlt =>
      simp only [Except.ok.injEq, Prod.mk.injEq] at h
      rw [← h.2, slotCount, Array.size_push]
      exact hlt slotLimit rfl
    · cases h

/-! ## Deleted states -/

@[simp] theorem slotCount_delete (a : Arena σ) (s : StateId) :
    (a.delete s).slotCount = a.slotCount := by
  unfold delete
  split
  · exact slotCount_put ..
  · rfl

theorem free_delete (a : Arena σ) (s : StateId) :
    (a.delete s).free = if a.isLive s then s :: a.free else a.free := by
  unfold delete
  split <;> rfl

@[simp] theorem nextSerial_delete (a : Arena σ) (s : StateId) :
    (a.delete s).nextSerial = a.nextSerial := by
  unfold delete
  split <;> rfl

/-! ## The slots -/

/-- Every operation keeps the free slots listed and the states counted. -/
theorem Step.tidy (h : Step a a') (ha : a.Tidy) : a'.Tidy := by
  cases h with
  | create h => exact (create_spec ha h).2.1
  | setEdge h => exact ha.setEdge h
  | setFinal h => exact ha.setFinal h
  | delete s => exact ha.delete s

/-- No operation makes more slots than there are identifiers. -/
theorem Step.slotCount_le (h : Step a a') (ha : a.slotCount ≤ slotLimit) :
    a'.slotCount ≤ slotLimit := by
  cases h with
  | create h => exact slotCount_of_create ha h
  | setEdge h =>
    obtain ⟨-, x, -, -, rfl⟩ := setEdge_eq_ok_iff.1 h
    rwa [slotCount_put]
  | setFinal h =>
    obtain ⟨x, -, rfl⟩ := setFinal_eq_ok_iff.1 h
    rwa [slotCount_put]
  | delete s => rwa [slotCount_delete]

/-! ## The serials -/

/-- The serials of the states are below the next one, and no two states have the same. -/
structure Stamped (a : Arena σ) : Prop where
  lt : ∀ {s x}, a.get? s = some x → x.serial < a.nextSerial
  inj : ∀ {s t x y}, a.get? s = some x → a.get? t = some y → x.serial = y.serial → s = t

theorem Stamped.empty : (∅ : Arena σ).Stamped where
  lt hx := nomatch (get?_empty _).symm.trans hx
  inj hx := nomatch (get?_empty _).symm.trans hx

/-- An arena in which every state was there with its serial is stamped. -/
theorem Stamped.of_states (h : a.Stamped) (hnext : a.nextSerial ≤ a'.nextSerial)
    (hold : ∀ {s x}, a'.get? s = some x → ∃ y, a.get? s = some y ∧ y.serial = x.serial) :
    a'.Stamped where
  lt hx := by
    obtain ⟨y, hy, hxy⟩ := hold hx
    exact hxy ▸ Nat.lt_of_lt_of_le (h.lt hy) hnext
  inj hx hx' heq := by
    obtain ⟨y, hy, hxy⟩ := hold hx
    obtain ⟨y', hy', hxy'⟩ := hold hx'
    exact h.inj hy hy' (by rw [hxy, heq, hxy'])

/-- A change of one state that leaves its serial keeps an arena stamped. -/
theorem Stamped.put {x y : State σ} (h : a.Stamped) (hx : a.get? s = some x)
    (hserial : y.serial = x.serial) : (a.put s (some y)).Stamped := by
  refine h.of_states (Nat.le_refl _) fun {t z} hz => ?_
  rw [get?_put (slot_lt_of_get? hx)] at hz
  split at hz
  · next ht =>
    cases hz
    exact ⟨x, ht ▸ hx, hserial.symm⟩
  · exact ⟨z, hz, rfl⟩

/-- **Every operation keeps the serials apart**: that of a new state was none before. -/
theorem Step.stamped (h : Step a a') (htidy : a.Tidy) (ha : a.Stamped) : a'.Stamped := by
  cases h with
  | create h =>
    obtain ⟨-, -, hget⟩ := create_spec htidy h
    have hnext := nextSerial_of_create h
    constructor
    case lt =>
      intro t x hx
      rw [hget] at hx
      split at hx
      · cases hx
        exact hnext ▸ Nat.lt_succ_self _
      · exact hnext ▸ Nat.lt_succ_of_lt (ha.lt hx)
    case inj =>
      intro t u x y hx hy heq
      rw [hget] at hx hy
      split at hx <;> split at hy
      · next ht hu => rw [ht, hu]
      · cases hx
        exact absurd heq (Nat.ne_of_gt (ha.lt hy))
      · cases hy
        exact absurd heq (Nat.ne_of_lt (ha.lt hx))
      · exact ha.inj hx hy heq
  | setEdge h =>
    obtain ⟨-, x, hx, -, rfl⟩ := setEdge_eq_ok_iff.1 h
    exact ha.put hx rfl
  | setFinal h =>
    obtain ⟨x, hx, rfl⟩ := setFinal_eq_ok_iff.1 h
    exact ha.put hx rfl
  | delete s =>
    refine ha.of_states (Nat.le_of_eq (nextSerial_delete a s).symm) fun {t x} hx => ?_
    rw [get?_delete] at hx
    split at hx
    · cases hx
    · exact ⟨x, hx, rfl⟩

/-! ## Any number of operations -/

theorem tidy_empty : (∅ : Arena σ).Tidy := by
  refine ⟨.nil, fun s => ?_, rfl⟩
  simp [show (∅ : Arena σ).free = [] from rfl, show (∅ : Arena σ).slotCount = 0 from rfl]

theorem Steps.tidy (h : Steps ∅ a) : a.Tidy := h.invariant Step.tidy tidy_empty

/-- **An arena has no more slots than identifiers can name.** -/
theorem Steps.slotCount_le (h : Steps ∅ a) : a.slotCount ≤ slotLimit :=
  h.invariant Step.slotCount_le (Nat.zero_le _)

/-- **No two states have one serial**, whatever operations have led to an arena. -/
theorem Steps.stamped (h : Steps ∅ a) : a.Stamped := by
  have hboth : a.Tidy ∧ a.Stamped := h.invariant (I := fun a => a.Tidy ∧ a.Stamped)
    (fun hs ⟨htidy, hstamped⟩ => ⟨hs.tidy htidy, hs.stamped htidy hstamped⟩) ⟨tidy_empty, .empty⟩
  exact hboth.2

end WordGraph.Arena
