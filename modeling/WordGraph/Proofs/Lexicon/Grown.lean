import WordGraph.Proofs.Lexicon.Alike
import WordGraph.Proofs.Lexicon.Building

/-!
# Every lexicon comes about from nothing

The last word of a lexicon need not be its greatest one, since words can be added without asking for
the order. But then a word may take an edge and others with it. None does so if the words that share
more with the one to be added last are added later: what a word shares with the last one, it shares
with all that are still to come.

* `createWithin_none_of_some` and its companions, `Grown.unbounded` — a run within a limit is a run
  without one
* `Precedes` — the order in which the words are added
* `not_displaces_of_precedes` — in this order no word takes an edge
* `Valid.exists_grown` — without a limit, every valid lexicon comes about but for its slots
-/

namespace WordGraph

variable {σ : Type} [Symbol σ]

/-! ## Runs within a limit -/

/-- A state that is made within a limit is made in the same way without. -/
theorem Arena.createWithin_none_of_some {a a' : Arena σ} {s : StateId} {limit : Option Nat}
    {isFinal : Bool} (h : a.createWithin limit isFinal = .ok (s, a')) :
    a.createWithin none isFinal = .ok (s, a') := by
  unfold createWithin at h ⊢
  cases hf : a.free with
  | cons u free =>
    simp only [hf] at h ⊢
    exact h
  | nil =>
    simp only [hf] at h ⊢
    split at h
    · rw [if_pos (by simp)]
      exact h
    · cases h

namespace Automaton

open Arena

variable {limit : Option Nat} {w : Word σ}

/-- A chain that is hung within a limit is hung in the same way without. -/
theorem hangWithin_none_of_some {arena : Arena σ} {parent : StateId}
    {chain : List (σ × StateId)} {overwrote : Bool}
    {made : Arena σ × StateId × List (σ × StateId) × Bool}
    (h : hangWithin limit arena parent chain overwrote w = .ok made) :
    hangWithin none arena parent chain overwrote w = .ok made := by
  induction w generalizing arena parent chain overwrote with
  | nil => exact h
  | cons c w ih =>
    simp only [hangWithin, bind_eq_ok_iff] at h ⊢
    obtain ⟨⟨child, a⟩, hc, ⟨old, a'⟩, hset, hw⟩ := h
    exact ⟨_, createWithin_none_of_some hc, _, hset, ih hw⟩

/-- A word that is added within a limit is added in the same way without. -/
theorem addWithin_none_of_some {g : Automaton σ} {made : Automaton σ × Insertion × List (Merge σ)}
    (h : g.addWithin limit w = .ok made) : g.addWithin none w = .ok made := by
  simp only [addWithin, bind_eq_ok_iff] at h ⊢
  obtain ⟨settled, hsettle, h⟩ := h
  refine ⟨settled, hsettle, ?_⟩
  split at h
  · exact h
  · simp only [bind_eq_ok_iff] at h ⊢
    obtain ⟨hung, hhang, h⟩ := h
    exact ⟨hung, hangWithin_none_of_some hhang, h⟩

end Automaton

namespace Lexicon

open Automaton

variable {l l' : Lexicon σ} {limit : Option Nat} {w v p x : Word σ} {isNew : Bool}
  {ws : List (Word σ)}

/-- A word that is added within a limit is added in the same way without. -/
theorem insertWithin_none_of_some (h : (l.insertWithin limit w).result = .ok (isNew, l')) :
    (l.insertWithin none w).result = .ok (isNew, l') := by
  rw [insertWithin_eq] at h ⊢
  simp only [Run.result_bind, bind_eq_ok_iff, Run.result_liftM_eq_ok_iff] at h ⊢
  obtain ⟨made, hadd, h⟩ := h
  exact ⟨made, addWithin_none_of_some hadd, h⟩

theorem addUncheckedWithin_none_of_some
    (h : (l.addUncheckedWithin limit w).result = .ok (isNew, l')) :
    (l.addUncheckedWithin none w).result = .ok (isNew, l') := by
  obtain ⟨hl, hr⟩ := addUncheckedWithin_eq_ok_iff.1 h
  exact addUncheckedWithin_eq_ok_iff.2 ⟨hl, insertWithin_none_of_some hr⟩

namespace Grown

/-- Every run keeps the lexicon valid. -/
theorem valid (h : Grown limit l) : l.Valid := by
  induction h with
  | new identity => exact .new identity
  | add _ hr ih =>
    obtain ⟨hl, hr⟩ := addUncheckedWithin_eq_ok_iff.1 (addWithin_eq_ok_iff.1 hr).2
    exact (ih.insertWithin_ok hl hr).valid
  | addUnchecked _ hr ih =>
    obtain ⟨hl, hr⟩ := addUncheckedWithin_eq_ok_iff.1 hr
    exact (ih.insertWithin_ok hl hr).valid
  | close _ hr ih => exact ih.step (.close hr)
  | clear _ hr ih => exact ih.step (.clear hr)

/-- A run within a limit is a run without one. -/
theorem unbounded (h : Grown limit l) : Grown none l := by
  induction h with
  | new identity => exact .new identity
  | add _ hr ih =>
    obtain ⟨hw, hr⟩ := addWithin_eq_ok_iff.1 hr
    exact ih.add (addWithin_eq_ok_iff.2 ⟨hw, addUncheckedWithin_none_of_some hr⟩)
  | addUnchecked _ hr ih => exact ih.addUnchecked (addUncheckedWithin_none_of_some hr)
  | close _ hr ih => exact ih.close hr
  | clear _ hr ih => exact ih.clear hr

end Grown

/-! ## An order of adding -/

/-- A word is added before another one if it shares less with the word `p` to be added last, or shares
as much and is less. -/
def Precedes (p w v : Word σ) : Prop :=
  w.commonPrefixLength p < v.commonPrefixLength p ∨
    w.commonPrefixLength p = v.commonPrefixLength p ∧ w < v

theorem Precedes.not_precedes (h : Precedes p w v) : ¬Precedes p v w := by
  rintro (hlt' | ⟨heq', hlt'⟩)
  · rcases h with hlt | ⟨heq, -⟩ <;> omega
  · rcases h with hlt | ⟨-, hlt⟩
    · omega
    · exact List.lt_asymm hlt hlt'

theorem not_precedes_self : ¬Precedes p w w := fun h => h.not_precedes h

/-- A word that takes an edge shares no more with `p` than with the last word, unless the words along
the edge share more with `p` than the last word. -/
theorem commonPrefixLength_le_of_displaces (h : Displaces v w x)
    (hxv : x.commonPrefixLength p ≤ v.commonPrefixLength p) :
    w.commonPrefixLength p ≤ w.commonPrefixLength v := by
  obtain ⟨hk, hx⟩ := h
  have hpre : w.take (w.commonPrefixLength v + 1) <+: w := List.take_prefix ..
  have hlen : (w.take (w.commonPrefixLength v + 1)).length = w.commonPrefixLength v + 1 := by
    rw [List.length_take, Nat.min_eq_left hk]
  by_contra hlt
  have hp : w.take (w.commonPrefixLength v + 1) <+: p :=
    (length_le_commonPrefixLength_iff hpre).1 (by omega)
  have hxp := (length_le_commonPrefixLength_iff hx).2 hp
  have hv := (length_le_commonPrefixLength_iff hpre).2
    (isPrefix_of_length_le hp (Nat.le_trans hxp hxv))
  omega

/-- Before the edge that a word takes, the words along it are the same as the word. -/
theorem commonPrefixLength_le_of_displaces_of_le (h : Displaces v w x)
    (hk : w.commonPrefixLength p ≤ w.commonPrefixLength v) :
    w.commonPrefixLength p ≤ x.commonPrefixLength p := by
  have hx : w.take (w.commonPrefixLength p) <+: x :=
    (List.take_prefix_take_left (by omega)).trans h.2
  have := (length_le_commonPrefixLength_iff hx).2 (take_commonPrefixLength_isPrefix w p)
  rwa [List.length_take, Nat.min_eq_left (Word.commonPrefixLength_le_left w p)] at this

/-- **A word that is added in this order takes no edge along which a word is accepted.** -/
theorem not_displaces_of_precedes (hv : ¬Precedes p v x) (hw : Precedes p v w) :
    ¬Displaces v w x := by
  intro h
  have hxv : x.commonPrefixLength p ≤ v.commonPrefixLength p :=
    Nat.le_of_not_lt fun hlt => hv (.inl hlt)
  have hwx := commonPrefixLength_le_of_displaces_of_le h (commonPrefixLength_le_of_displaces h hxv)
  -- all three words share the same with `p`, so they are added in lexicographic order
  rcases hw with hlt | ⟨heq, hlt⟩
  · omega
  · exact not_displaces_of_not_lt (List.lt_asymm hlt) (fun hvx => hv (.inr ⟨by omega, hvx⟩)) h

/-- The words of a list in the order in which they are added. -/
def schedule (p : Word σ) (ws : List (Word σ)) : List (Word σ) :=
  (List.range (p.length + 1)).flatMap fun n => ws.filter fun w => w.commonPrefixLength p = n

theorem mem_schedule_iff : w ∈ schedule p ws ↔ w ∈ ws := by
  simp only [schedule, List.mem_flatMap, List.mem_range, List.mem_filter, decide_eq_true_eq]
  constructor
  · rintro ⟨n, -, hw, -⟩
    exact hw
  · exact fun hw => ⟨_, Nat.lt_succ_of_le (Word.commonPrefixLength_le_right w p), hw, rfl⟩

theorem pairwise_schedule (h : ws.Pairwise (· < ·)) : (schedule p ws).Pairwise (Precedes p) := by
  refine List.pairwise_flatMap.2 ⟨fun n _ => ?_, ?_⟩
  · refine (h.filter _).imp_of_mem fun {w v} hw hv hlt => .inr ⟨?_, hlt⟩
    have hw := (List.mem_filter.1 hw).2
    have hv := (List.mem_filter.1 hv).2
    simp only [decide_eq_true_eq] at hw hv
    rw [hw, hv]
  · refine List.pairwise_lt_range.imp fun {m n} hlt w hw v hv => .inl ?_
    have hw := (List.mem_filter.1 hw).2
    have hv := (List.mem_filter.1 hv).2
    simp only [decide_eq_true_eq] at hw hv
    rwa [hw, hv]

example : schedule (σ := UInt8) [1, 3] [[1], [1, 2], [1, 3], [2]] = [[2], [1], [1, 2], [1, 3]] := by
  decide

theorem nodup_of_pairwise (h : ws.Pairwise (Precedes p)) : ws.Nodup := by
  refine List.Pairwise.imp (fun {w v} hwv he => ?_) h
  rw [he] at hwv
  exact not_precedes_self hwv

/-! ## Adding the words in this order -/

/-- The size of a valid lexicon is the length of a list of its words. -/
theorem Valid.size_eq_length (h : l.Valid) (hnd : ws.Nodup) (hm : ∀ w, l.Holds w ↔ w ∈ ws) :
    l.size = ws.length := by
  rw [h.size_eq]
  refine List.Perm.length_eq ((List.perm_ext_iff_of_nodup (Arena.nodup_listing ..) hnd).2 fun w => ?_)
  rw [h.mem_listing_iff, hm]

/-- Without a limit, a word that takes no edge is added unless it is one word too many. -/
theorem Grown.exists_insert (h : Grown none l) (hl : l.lifecycle ≠ .closed)
    (hfit : l.Holds w ∨ l.size + 1 < countLimit)
    (hkeep : ∀ v, l.Holds v → ¬Displaces l.automaton.lastWord w v) :
    ∃ l', Grown none l' ∧ l'.lifecycle = .active ∧ l'.automaton.lastWord = w ∧
      ∀ v, l'.Holds v ↔ v = w ∨ l.Holds v := by
  cases hr : (l.insertWithin none w).result with
  | error e =>
    rcases h.valid.insertWithin_error hl hr with ⟨-, -, n, hn, -⟩ | ⟨-, hnew, -, hsize⟩
    · cases hn
    · rcases hfit with hold | hlt
      · exact absurd hold hnew
      · omega
  | ok made =>
    obtain ⟨isNew, l'⟩ := made
    have hins := h.valid.insertWithin_ok hl hr
    refine ⟨l', h.addUnchecked (addUncheckedWithin_eq_ok_iff.2 ⟨hl, hr⟩), hins.lifecycle_eq,
      hins.lastWord_eq, fun v => ?_⟩
    rw [hins.holds_iff]
    exact or_congr_right (and_iff_left_of_imp (hkeep v))

/-- A lexicon has come about by adding some words in the order in which `p` is added last. -/
structure Awaits (p : Word σ) (ws : List (Word σ)) (l : Lexicon σ) : Prop where
  grown : Grown none l
  not_closed : l.lifecycle ≠ .closed
  holds_iff : ∀ w, l.Holds w ↔ w ∈ ws
  not_precedes : ∀ w ∈ ws, ¬Precedes p l.automaton.lastWord w

/-- The words can be added in this order. -/
theorem exists_awaits (hws : ws.Pairwise (Precedes p)) (hlt : ws.length < countLimit) :
    ∃ l, Awaits p ws l := by
  induction ws using List.reverseRecOn with
  | nil =>
    refine ⟨.new 0, .new 0, nofun, fun w => ?_, fun w hw => nomatch hw⟩
    simp [not_holds_initial (l := (new 0 : Lexicon σ)) rfl]
  | append_singleton ws w ih =>
    obtain ⟨hws, -, hw⟩ := List.pairwise_append.1 hws
    have hw : ∀ v ∈ ws, Precedes p v w := fun v hv => hw v hv w (List.mem_singleton_self w)
    rw [List.length_append, List.length_singleton] at hlt
    obtain ⟨l, hl⟩ := ih hws (by omega)
    have hvalid := hl.grown.valid
    have hsize := hvalid.size_eq_length (nodup_of_pairwise hws) hl.holds_iff
    have hkeep : ∀ v, l.Holds v → ¬Displaces l.automaton.lastWord w v := by
      intro v hv
      -- there is a word, so the last word is one of those that were added
      have hlast := hvalid.holds_lastWord (hvalid.lifecycle_eq hl.not_closed hv)
      rw [hl.holds_iff] at hv hlast
      exact not_displaces_of_precedes (hl.not_precedes v hv) (hw _ hlast)
    obtain ⟨l', hgrown, hlife, hlast, hholds⟩ :=
      hl.grown.exists_insert hl.not_closed (.inr (by omega)) hkeep
    refine ⟨l', hgrown, hlife ▸ nofun, fun v => ?_, fun v hv => ?_⟩
    · rw [hholds, hl.holds_iff, List.mem_append, List.mem_singleton, or_comm]
    · rw [hlast]
      rcases List.mem_append.1 hv with hv | hv
      · exact (hw v hv).not_precedes
      · rw [List.mem_singleton.1 hv]
        exact not_precedes_self

/-- A word that does not precede `p` has `p` in front. -/
theorem isPrefix_of_not_precedes (h : ¬Precedes p w p) : p <+: w := by
  have hself : p.commonPrefixLength p = p.length :=
    commonPrefixLength_eq_length_iff.2 (List.prefix_refl p)
  have hle : p.length ≤ w.commonPrefixLength p :=
    Nat.le_of_not_lt fun hlt => h (.inl (hself ▸ hlt))
  exact isPrefix_of_length_le (List.prefix_refl p) hle

/-- **Without a limit, every valid lexicon comes about from nothing**, but for its slots and what is
out of reach. -/
theorem Valid.exists_grown (h : l.Valid) : ∃ k, Grown none k ∧ Alike l k := by
  have hlength : ∀ p, (schedule p (l.arena.listing l.root)).length < countLimit := by
    intro p
    rw [← h.size_eq_length (nodup_of_pairwise (pairwise_schedule (Arena.sorted_listing ..)))
      fun w => by rw [mem_schedule_iff, h.mem_listing_iff]]
    exact h.size_lt
  obtain ⟨k, hk⟩ := exists_awaits (p := l.automaton.lastWord)
    (pairwise_schedule (Arena.sorted_listing l.arena l.root)) (hlength _)
  have hholds : ∀ w, l.Holds w ↔ k.Holds w := by
    intro w
    rw [hk.holds_iff, mem_schedule_iff, h.mem_listing_iff]
  cases hlife : l.lifecycle with
  | empty =>
    have hlast := h.lastWord_eq_nil (by rw [hlife]; decide)
    refine ⟨.new 0, .new 0, h, .new 0, hlife, hlast, fun w => ?_⟩
    exact iff_of_false (h.no_words hlife w) (not_holds_initial rfl)
  | active =>
    -- the last word is added once more, at the end
    have hmem := (hholds _).1 (h.holds_lastWord hlife)
    have hpre := isPrefix_of_not_precedes (hk.not_precedes _ ((hk.holds_iff _).1 hmem))
    obtain ⟨k', hgrown, hlife', hlast, hholds'⟩ := hk.grown.exists_insert hk.not_closed
      (.inl hmem) fun v _ => not_displaces_of_isPrefix hpre
    refine ⟨k', hgrown, h, hgrown.valid, hlife.trans hlife'.symm, hlast.symm, fun w => ?_⟩
    rw [hholds', hholds, or_iff_right_of_imp]
    rintro rfl
    exact hmem
  | closed =>
    obtain ⟨k', hclose, hshut⟩ := hk.grown.valid.close_spec
    have hgrown := hk.grown.close hclose
    refine ⟨k', hgrown, h, hshut.valid, hlife.trans hshut.lifecycle_eq.symm, ?_, fun w => ?_⟩
    · rw [h.lastWord_eq_nil (by rw [hlife]; decide),
        hshut.valid.lastWord_eq_nil (by rw [hshut.lifecycle_eq]; decide)]
    · rw [hshut.holds_iff, hholds]

end Lexicon

end WordGraph
