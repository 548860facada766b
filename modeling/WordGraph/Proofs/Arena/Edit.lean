import WordGraph.Arena.Edit
import WordGraph.Proofs.Arena.History
import WordGraph.Proofs.Run

/-!
# Slots are given out in order

Whatever edits have made an arena, its list of free slots holds each free slot once, with the one freed
last in front, and its states are counted. A new state gets a slot that holds none, and a serial that
none had since the arena was cleared. No edit changes a state that it does not name.

What an edit does is told once, by `Edited`; all the rest follows from that.

* `Edit.edited_of_apply` — what an edit does
* `Kept`, `Edited.kept` — what an edit keeps
* `Orderly` — slots are given out in order
* `Ledger.ofEdits_orderly` — that is so after any edits
-/

namespace WordGraph.Arena

variable {σ : Type} [Symbol σ] {a a' : Arena σ} {s : StateId} {x : State σ} {isFinal looking : Bool}
  {l l' : Ledger σ} {e : Edit σ} {edits : List (Edit σ)}

/-! ## What an edit does -/

/-- An edit makes a state, frees a slot, changes a state or takes all states away. -/
inductive Edited (l : Ledger σ) : Edit σ → Ledger σ → Prop
  | create {isFinal : Bool} {s : StateId} {a' : Arena σ} {x : State σ}
      (h : l.arena.create isFinal = .ok (s, a')) (hx : a'.get? s = some x) :
      Edited l (.create isFinal) ⟨a', x.serial :: l.made, l.freed⟩
  | delete (s : StateId) : Edited l (.delete s)
      ⟨l.arena.delete s, l.made, if l.arena.isLive s then s :: l.freed else l.freed⟩
  | change {e : Edit σ} {s : StateId} {x y : State σ} (he : e.Names s)
      (hx : l.arena.get? s = some x) (hserial : y.serial = x.serial) :
      Edited l e { l with arena := l.arena.put s (some y) }
  | clear : Edited l .clear ∅

theorem Edit.edited_of_apply (h : e.apply looking l = .ok l') : Edited l e l' := by
  cases e with
  | create isFinal =>
    simp only [apply, bind_eq_ok_iff] at h
    obtain ⟨⟨s, a'⟩, hcreate, x, hx, h⟩ := h
    cases h
    exact .create hcreate (state_eq_ok_iff.1 hx)
  | delete s =>
    cases h
    exact .delete s
  | setEdge s c t =>
    simp only [apply, bind_eq_ok_iff] at h
    obtain ⟨⟨old, a'⟩, hlink, h⟩ := h
    cases h
    obtain ⟨x, hx, rfl⟩ := exists_of_linkEdge hlink
    exact .change rfl hx rfl
  | setFinal s isFinal =>
    simp only [apply, bind_eq_ok_iff] at h
    obtain ⟨a', hset, h⟩ := h
    cases h
    obtain ⟨x, hx, rfl⟩ := setFinal_eq_ok_iff.1 hset
    exact .change rfl hx rfl
  | clear =>
    cases h
    exact .clear

/-! ## The order of the free slots -/

/-- A new state takes the first free slot, or one behind all slots if none is free. -/
theorem free_of_create (h : a.create isFinal = .ok (s, a')) :
    a.free = s :: a'.free ∨ a.free = [] ∧ a'.free = [] ∧ s = ⟨a.slotCount⟩ := by
  unfold create createWithin at h
  split at h
  · next u free hf =>
    obtain ⟨rfl, rfl⟩ := Prod.mk.inj (Except.ok.inj h)
    exact .inl hf
  · next hf =>
    split at h
    · obtain ⟨rfl, rfl⟩ := Prod.mk.inj (Except.ok.inj h)
      exact .inr ⟨hf, hf, rfl⟩
    · cases h

theorem not_isLive_delete (a : Arena σ) (s t : StateId) :
    (!(a.delete s).isLive t) = (t == s || !a.isLive t) := by
  rw [isLive, get?_delete, isLive]
  by_cases ht : t = s <;> simp [ht]

/-- A slot that is freed comes before those that were free. -/
theorem eraseDups_filter_cons {p : StateId → Bool} (hs : p s = false) (ss : List StateId) :
    ((s :: ss).filter fun t => t == s || p t).eraseDups = s :: (ss.filter p).eraseDups := by
  have hrest : (fun t => !t == s && (t == s || p t)) = p := by
    funext t
    rcases eq_or_ne t s with rfl | ht
    · simp [hs]
    · simp [beq_false_of_ne ht]
  rw [List.filter_cons, if_pos (by simp), List.eraseDups_cons, List.filter_filter, hrest]

/-- Without its first member, a list without repetitions is that of the other members. -/
theorem eraseDups_filter_ne {ss rest : List StateId} (h : ss.eraseDups = s :: rest) :
    (ss.filter fun t => !t == s).eraseDups = rest := by
  cases ss with
  | nil => cases h
  | cons t ts =>
    rw [List.eraseDups_cons] at h
    obtain ⟨rfl, hrest⟩ := List.cons.inj h
    rw [List.filter_cons, if_neg (by simp)]
    exact hrest

theorem eq_nil_of_eraseDups {ss : List StateId} (h : ss.eraseDups = []) : ss = [] := by
  cases ss with
  | nil => rfl
  | cons t ts =>
    rw [List.eraseDups_cons] at h
    cases h

/-! ## What an edit keeps -/

/-- What is kept of the arena of a ledger. -/
structure Kept (l : Ledger σ) : Prop where
  tidy : l.arena.Tidy
  stamped : l.arena.Stamped
  slotCount_le : l.arena.slotCount ≤ slotLimit
  made_eq : l.made = (List.range l.arena.nextSerial).reverse
  /-- The free slots stand in the order in which they were freed. -/
  free_eq : l.arena.free = (l.freed.filter fun s => !l.arena.isLive s).eraseDups

theorem Kept.empty : Kept (∅ : Ledger σ) := ⟨tidy_empty, .empty, Nat.zero_le _, rfl, rfl⟩

/-- **Every edit keeps the slots and the serials in order.** -/
theorem Edited.kept (h : Edited l e l') (hl : Kept l) : Kept l' := by
  cases h with
  | @create isFinal s a' x h hx =>
    obtain ⟨hnone, htidy, hget⟩ := create_spec hl.tidy h
    have hlive : ∀ t, (!a'.isLive t) = (!t == s && !l.arena.isLive t) := by
      intro t
      rw [isLive, hget, isLive]
      by_cases ht : t = s
      · simp [ht]
      · simp [ht]
    refine ⟨htidy, (Step.create h).stamped hl.tidy hl.stamped,
      slotCount_of_create hl.slotCount_le h, ?_, ?_⟩
    · rw [hget, if_pos rfl] at hx
      cases hx
      rw [nextSerial_of_create h, List.range_succ, List.reverse_concat, hl.made_eq]
    · show a'.free = (l.freed.filter fun t => !a'.isLive t).eraseDups
      have hfree := hl.free_eq
      simp only [hlive, ← List.filter_filter]
      rcases free_of_create h with hcons | ⟨hnil, hnil', -⟩
      · exact (eraseDups_filter_ne (hfree.symm.trans hcons)).symm
      · rw [eq_nil_of_eraseDups (hfree.symm.trans hnil), hnil']
        rfl
  | delete s =>
    have hstep := Step.delete l.arena s
    refine ⟨hl.tidy.delete s, hstep.stamped hl.tidy hl.stamped, hstep.slotCount_le hl.slotCount_le,
      ?_, ?_⟩
    · exact hl.made_eq.trans (by rw [nextSerial_delete])
    · show (l.arena.delete s).free =
        ((if l.arena.isLive s then s :: l.freed else l.freed).filter
          fun t => !(l.arena.delete s).isLive t).eraseDups
      simp only [not_isLive_delete, free_delete, hl.free_eq]
      by_cases hs : l.arena.isLive s
      · rw [if_pos hs, if_pos hs, eraseDups_filter_cons (by simp [hs])]
      · have hsame : (fun t => t == s || !l.arena.isLive t) = fun t => !l.arena.isLive t := by
          funext t
          rcases eq_or_ne t s with rfl | ht
          · simp [hs]
          · simp [beq_false_of_ne ht]
        rw [if_neg hs, if_neg hs, hsame]
  | @change e s x y he hx hserial =>
    refine ⟨hl.tidy.put hx y, hl.stamped.put hx hserial, ?_, hl.made_eq, ?_⟩
    · exact (slotCount_put ..).trans_le hl.slotCount_le
    have hlive : ∀ t, (l.arena.put s (some y)).isLive t = l.arena.isLive t := by
      intro t
      rw [isLive, get?_put (slot_lt_of_get? hx), isLive]
      by_cases ht : t = s <;> simp [ht, hx]
    simp only [hlive]
    exact hl.free_eq
  | clear => exact .empty

theorem Ledger.kept (h : Ledger.ofEdits looking edits = .ok l) : Kept l := by
  induction edits using List.reverseRecOn generalizing l with
  | nil =>
    cases h
    exact .empty
  | append_singleton edits e ih =>
    rw [Ledger.ofEdits, List.foldlM_append, bind_eq_ok_iff] at h
    obtain ⟨l₁, h₁, h⟩ := h
    rw [List.foldlM_cons, bind_eq_ok_iff] at h
    obtain ⟨l₂, h₂, h⟩ := h
    cases h
    exact (Edit.edited_of_apply h₂).kept (ih h₁)

/-! ## Slots in order -/

/-- No edit changes a state that it does not name. -/
theorem Edited.get?_of_not_names (h : Edited l e l') (hl : Kept l) (hs : l.arena.get? s = some x)
    (hnames : ¬e.Names s) : l'.arena.get? s = some x := by
  cases h with
  | create h hx =>
    obtain ⟨hnone, -, hget⟩ := create_spec hl.tidy h
    rw [hget, if_neg, hs]
    rintro rfl
    rw [hnone] at hs
    cases hs
  | delete t => exact (get?_delete ..).trans ((if_neg hnames).trans hs)
  | @change e t y z he hy hserial =>
    rw [get?_put_of_ne, hs]
    rintro rfl
    exact hnames he
  | clear => exact absurd trivial hnames

/-- The slot for the next state: the one freed last of those that are free, or a new one behind all
slots if none is free. -/
structure Ledger.NextSlot (l : Ledger σ) (s : StateId) : Prop where
  not_isLive : ¬l.arena.isLive s
  freed_last : (∃ t : StateId, t.slot < l.arena.slotCount ∧ ¬l.arena.isLive t) →
    (l.freed.find? fun t => !l.arena.isLive t) = some s
  behind : (∀ t : StateId, t.slot < l.arena.slotCount → l.arena.isLive t) → s = ⟨l.arena.slotCount⟩

/-- The first free slot is the one freed last. -/
theorem Kept.find?_freed (hl : Kept l) :
    (l.freed.find? fun t => !l.arena.isLive t) = l.arena.free.head? := by
  rw [← List.head?_filter, hl.free_eq]
  cases l.freed.filter fun t => !l.arena.isLive t with
  | nil => rfl
  | cons t ts => rw [List.eraseDups_cons]; rfl

theorem Kept.mem_free_iff (hl : Kept l) :
    s ∈ l.arena.free ↔ s.slot < l.arena.slotCount ∧ ¬l.arena.isLive s := by
  simp [hl.tidy.mem_free_iff, isLive]

/-- A new state gets the next slot, as long as not every identifier names a state. -/
theorem Kept.create_spec (hl : Kept l) (isFinal : Bool) :
    (∃ s a', l.arena.create isFinal = .ok (s, a') ∧ l.NextSlot s ∧
      a'.get? s = some ⟨l.arena.nextSerial, isFinal, ∅⟩) ∨
    l.arena.create isFinal = .error .arenaFull ∧ l.arena.live = slotLimit := by
  cases hcreate : l.arena.create isFinal with
  | error f =>
    obtain ⟨rfl, n, hn, hle⟩ := createWithin_eq_error hl.tidy hcreate
    cases hn
    have hadd := hl.tidy.live_add
    have hcount := hl.slotCount_le
    exact .inr ⟨rfl, by omega⟩
  | ok made =>
    obtain ⟨s, a'⟩ := made
    obtain ⟨hnone, -, hget⟩ := Arena.create_spec hl.tidy hcreate
    refine .inl ⟨s, a', rfl, ⟨by simp [isLive, hnone], ?_, ?_⟩, by rw [hget, if_pos rfl]⟩
    · rintro ⟨t, ht⟩
      rw [hl.find?_freed]
      rcases free_of_create hcreate with hcons | ⟨hnil, -⟩
      · rw [hcons, List.head?_cons]
      · rw [← hl.mem_free_iff, hnil] at ht
        cases ht
    · intro hall
      rcases free_of_create hcreate with hcons | ⟨-, -, hs⟩
      · have hmem : s ∈ l.arena.free := hcons ▸ List.mem_cons_self ..
        obtain ⟨hlt, hdead⟩ := hl.mem_free_iff.1 hmem
        exact absurd (hall s hlt) hdead
      · exact hs

/-- Slots are given out in order, and nobody's state is changed by the way. -/
structure Orderly (looking : Bool) (l : Ledger σ) : Prop where
  /-- Each free slot is listed once, and no other. -/
  count_free : ∀ s, l.arena.free.count s =
    if s.slot < l.arena.slotCount ∧ ¬l.arena.isLive s then 1 else 0
  encard_isLive : {s | l.arena.isLive s}.encard = l.arena.live
  /-- A new state gets the next slot, unless every identifier names a state. -/
  create : ∀ isFinal,
    (∃ s a', l.arena.create isFinal = .ok (s, a') ∧ l.NextSlot s ∧
      a'.get? s = some ⟨l.arena.nextSerial, isFinal, ∅⟩) ∨
    l.arena.create isFinal = .error .arenaFull ∧ l.arena.live = slotLimit
  /-- No two states that were made have had one serial. -/
  nodup_made : l.made.Nodup
  serial_mem : ∀ s x, l.arena.get? s = some x → x.serial ∈ l.made
  stamped : l.arena.Stamped
  /-- The next serial is the number of states that were made, so 64 bits hold it until 2^64 were. -/
  nextSerial_eq : l.arena.nextSerial = l.made.length
  /-- An edit leaves the states that it does not name. -/
  get?_of_not_names : ∀ e l', Edit.apply looking l e = .ok l' → ∀ s x, l.arena.get? s = some x →
    ¬e.Names s → l'.arena.get? s = some x

/-- **Slots are given out in order**, whatever edits have made an arena. -/
theorem Ledger.ofEdits_orderly (h : Ledger.ofEdits looking edits = .ok l) : Orderly looking l := by
  have hl := Ledger.kept h
  constructor
  case count_free =>
    intro s
    rw [hl.tidy.nodup.count]
    simp only [hl.mem_free_iff]
  case encard_isLive => exact hl.tidy.encard_isLive
  case create => exact hl.create_spec
  case nodup_made =>
    rw [hl.made_eq, List.nodup_reverse]
    exact List.nodup_range
  case serial_mem =>
    intro s x hx
    rw [hl.made_eq, List.mem_reverse, List.mem_range]
    exact hl.stamped.lt hx
  case stamped => exact hl.stamped
  case nextSerial_eq => simp [hl.made_eq]
  case get?_of_not_names =>
    intro e l' he s x hx hnames
    exact (Edit.edited_of_apply he).get?_of_not_names hl hx hnames

/-- Two states are made and linked, the second is freed twice and the first once, and the next state
gets the slot of the first. -/
theorem orderly_of_reuse :
    ∃ l : Ledger UInt8, Ledger.ofEdits true [.create false, .create true, .setEdge ⟨0⟩ 7 ⟨1⟩,
        .delete ⟨1⟩, .delete ⟨1⟩, .delete ⟨0⟩, .create true] = .ok l ∧
      l.arena.free = [⟨1⟩] ∧ l.made = [2, 1, 0] ∧ Orderly true l := by
  have hrun : (fun l => (l.arena.free, l.made)) <$> Ledger.ofEdits true
      [.create false, .create true, .setEdge ⟨0⟩ (7 : UInt8) ⟨1⟩, .delete ⟨1⟩, .delete ⟨1⟩,
        .delete ⟨0⟩, .create true] = .ok ([⟨1⟩], [2, 1, 0]) := rfl
  obtain ⟨l, h, hl⟩ := map_eq_ok_iff.1 hrun
  obtain ⟨hfree, hmade⟩ := Prod.mk.inj hl
  exact ⟨l, h, hfree, hmade, Ledger.ofEdits_orderly h⟩

end WordGraph.Arena
