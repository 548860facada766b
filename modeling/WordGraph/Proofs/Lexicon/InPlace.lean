import Mathlib
import WordGraph.Lexicon.InPlace
import WordGraph.Proofs.Lexicon.Resume
import WordGraph.Proofs.Lexicon.Safe

/-!
# Refusing a word

A word is compared with the last one along the path that the last one has left, symbol by symbol, and
is given up at the first symbol that is smaller or when it ends on the way. That comes to the
lexicographic order of the two words. The comparison is all that adding in order has before adding
in any order, and it is over when the first part of the lexicon is changed, so a word that is
refused leaves no trace.

* `outcome_bind` and its companions — what an operation in place comes to
* `Automaton.agreement_eq` — the comparison tells the lexicographic order
* `outcome_addInPlace` — what adding a word in place comes to
* `Valid.outcome_add`, `Valid.outcome_addUnchecked` — it is what `add` and `addUnchecked` come to
* `outcome_eq_refusal_iff` — a refusal leaves the lexicon as it is
* `Reachable.refusals` — which words are refused, and what becomes of the others
-/

namespace WordGraph

variable {σ : Type} [Symbol σ] {w v last : Word σ} {n : Nat} {ordered : Bool}
  {path : List (σ × StateId)} {l l' : Lexicon σ}

/-! ## Operations in place -/

namespace InPlace

variable {α β : Type}

@[simp] theorem outcome_throw_bind (e : Error σ) (f : α → InPlace σ β) (l : Lexicon σ) :
    (throw e >>= f).outcome l = .ok (.error e, l) := rfl

@[simp] theorem outcome_get_bind (f : Lexicon σ → InPlace σ β) (l : Lexicon σ) :
    (get >>= f).outcome l = (f l).outcome l := rfl

@[simp] theorem outcome_modify_bind (h : Lexicon σ → Lexicon σ) (f : PUnit → InPlace σ β)
    (l : Lexicon σ) : (modify h >>= f).outcome l = (f ⟨⟩).outcome (h l) := rfl

/-- What is done to the lexicon that an operation has left, unless it was refused. -/
theorem outcome_bind (x : InPlace σ α) (f : α → InPlace σ β) (l : Lexicon σ) :
    (x >>= f).outcome l = x.outcome l >>= fun r =>
      match r.1 with
      | .ok a => (f a).outcome r.2
      | .error e => .ok (.error e, r.2) := by
  unfold outcome
  rw [ExceptT.run_bind, StateT.run_bind, Run.result_bind]
  refine congrArg _ (funext fun r => ?_)
  obtain ⟨a | e, l'⟩ := r <;> rfl

@[simp] theorem outcome_lift_bind (x : Run σ α) (f : α → InPlace σ β) (l : Lexicon σ) :
    (lift x >>= f).outcome l = x.result >>= fun a => (f a).outcome l := by
  obtain ⟨r, es⟩ := x
  rw [outcome_bind]
  cases r <;> rfl

@[simp] theorem outcome_liftFault_ok_bind (a : α) (f : α → InPlace σ β) (l : Lexicon σ) :
    (liftFault (.ok a) >>= f).outcome l = (f a).outcome l := rfl

end InPlace

/-! ## The part of the path that a word keeps -/

/-- A word comes before its proper extensions. -/
theorem Word.lt_iff_of_isPrefix (h : w <+: v) : w < v ↔ w ≠ v := by
  induction w generalizing v with
  | nil => cases v <;> simp
  | cons c w ih =>
    obtain ⟨u, rfl⟩ := h
    rw [List.cons_append, List.cons_lt_cons_self, ih (List.prefix_append w u)]
    simp

/-- No extension of a word comes before it. -/
theorem Word.not_lt_of_isPrefix (h : v <+: w) : ¬w < v := by
  by_cases he : v = w
  · exact he ▸ List.lt_irrefl v
  · exact List.lt_asymm ((lt_iff_of_isPrefix h).2 he)

namespace Automaton

theorem agreeFrom_eq (h : (path.drop n).map Prod.fst = last) :
    agreeFrom ordered path n w =
      if ordered ∧ w < last ∧ ¬w <+: last then none
      else some (n + w.commonPrefixLength last) := by
  induction w generalizing n last with
  | nil => simp [agreeFrom, Word.commonPrefixLength]
  | cons c w ih =>
    rw [agreeFrom]
    cases hn : path[n]? with
    | none =>
      rw [List.drop_eq_nil_of_le (List.getElem?_eq_none_iff.1 hn), List.map_nil] at h
      subst h
      simp
    | some e =>
      obtain ⟨d, s⟩ := e
      obtain ⟨hlt, hget⟩ := List.getElem?_eq_some_iff.1 hn
      rw [List.drop_eq_getElem_cons hlt, hget, List.map_cons] at h
      subst h
      simp only [Word.commonPrefixLength]
      by_cases hcd : c = d
      · subst hcd
        simp only [if_true, ih rfl, List.cons_lt_cons_self, List.prefix_cons_inj, Nat.add_assoc,
          Nat.add_comm 1]
      · have hpre : ¬c :: w <+: d :: (path.drop (n + 1)).map Prod.fst := by
          simp [List.cons_prefix_cons, hcd]
        have hlex : c :: w < d :: (path.drop (n + 1)).map Prod.fst ↔ c < d := by
          simp [List.cons_lt_cons_iff, hcd]
        simp only [if_neg hcd, hpre, hlex, not_false_eq_true, and_true, Nat.add_zero,
          Bool.and_eq_true, decide_eq_true_eq]
        simp only [and_comm]

/-- **A word is refused just if it comes before the word of the path**, and keeps what it shares with
that word otherwise. -/
theorem agreement_eq (h : path.map Prod.fst = last) :
    agreement ordered path w =
      if ordered ∧ w < last then none else some (w.commonPrefixLength last) := by
  have hlen : path.length = last.length := by rw [← h, List.length_map]
  rw [agreement, agreeFrom_eq (n := 0) h, Nat.zero_add, hlen]
  by_cases hpre : w <+: last
  · have hk := commonPrefixLength_eq_length_iff.2 hpre
    have hlt : w < last ↔ w.length < last.length :=
      (Word.lt_iff_of_isPrefix hpre).trans (length_lt_iff_ne_of_isPrefix hpre).symm
    simp [hpre, hk, hlt]
  · have hk : w.commonPrefixLength last ≠ w.length := fun h =>
      hpre (commonPrefixLength_eq_length_iff.1 h)
    by_cases hlt : w < last <;> cases ordered <;> simp [hpre, hk, hlt]

end Automaton

namespace Lexicon

open InPlace Automaton

/-! ## Adding a word -/

theorem outcome_keepInPlace (ordered : Bool) (w : Word σ) (l : Lexicon σ) :
    (keepInPlace ordered w).outcome l =
      if ordered ∧ w < l.automaton.lastWord then
        .ok (.error (.outOfOrder l.automaton.lastWord w), l)
      else .ok (.ok (w.commonPrefixLength l.automaton.lastWord), l) := by
  rw [keepInPlace, outcome_get_bind]
  simp only [agreement_eq (rfl : _ = l.automaton.lastWord)]
  by_cases hrefused : ordered ∧ w < l.automaton.lastWord
  · rw [if_pos hrefused, if_pos hrefused]
    rfl
  · rw [if_neg hrefused, if_neg hrefused]
    rfl

/-- The automaton grows in place as it does otherwise. -/
theorem outcome_growInPlace (w : Word σ) (l : Lexicon σ) :
    (growInPlace (w.commonPrefixLength l.automaton.lastWord) w).outcome l =
      ((l.automaton.add w).mapError Error.fault).map fun r =>
        (.ok r.2.1, { l with automaton := r.1 }) := by
  have hlen : l.automaton.path.length = l.automaton.lastWord.length := by
    rw [Automaton.lastWord, List.length_map]
  rw [growInPlace, outcome_get_bind, Automaton.add, Automaton.addWithin]
  simp only [hlen, hang]
  cases l.automaton.settle (w.commonPrefixLength l.automaton.lastWord) with
  | error f => rfl
  | ok settled =>
    obtain ⟨g, merges⟩ := settled
    simp only [outcome_liftFault_ok_bind, ok_bind, outcome_modify_bind, outcome_lift_bind,
      result_noteMerges]
    cases w.drop (w.commonPrefixLength l.automaton.lastWord) with
    | nil =>
      cases g.arena.state (endOf g.root g.path) with
      | error f => rfl
      | ok x =>
        simp only [outcome_liftFault_ok_bind, ok_bind]
        cases x.isFinal with
        | true => rfl
        | false =>
          simp only [Bool.false_eq_true, if_false]
          cases g.arena.setFinal (endOf g.root g.path) true <;> rfl
    | cons c u =>
      dsimp only
      cases hangWithin (some slotLimit) g.arena (endOf g.root g.path) [] false (c :: u) with
      | error f => rfl
      | ok made =>
        obtain ⟨a, s, chain, overwrote⟩ := made
        simp only [outcome_liftFault_ok_bind, ok_bind, outcome_modify_bind]
        cases a.setFinal s true <;> rfl

theorem outcome_tallyInPlace (i : Insertion) (w : Word σ) (l : Lexicon σ) :
    (tallyInPlace i w).outcome l = (l.tally i w).result.map fun l => (.ok (), l) := by
  rw [tallyInPlace, outcome_get_bind, tally]
  obtain ⟨added, modified, overwrote⟩ := i
  cases overwrote with
  | true =>
    simp only [if_true, outcome_lift_bind]
    cases l.recount.result <;> rfl
  | false =>
    cases added with
    | true =>
      simp only [Bool.false_eq_true, if_false, if_true, Run.result_bind]
      cases Numbering.plus l.size 1 <;> rfl
    | false => rfl

/-- What adding a word in place comes to: one of the two refusals, which leave the lexicon as it is, or
what inserting the word comes to. -/
theorem outcome_addInPlace (ordered : Bool) (w : Word σ) (l : Lexicon σ) :
    (addInPlace ordered w).outcome l =
      if l.lifecycle = .closed then .ok (.error .closed, l)
      else if ordered ∧ w < l.automaton.lastWord then
        .ok (.error (.outOfOrder l.automaton.lastWord w), l)
      else (l.insert w).result.map fun r => (.ok r.1, r.2) := by
  rw [addInPlace, outcome_get_bind]
  by_cases hl : l.lifecycle = .closed
  · rw [if_pos hl, if_pos hl, outcome_throw_bind]
  · rw [if_neg hl, if_neg hl, outcome_bind, outcome_keepInPlace]
    by_cases hrefused : ordered ∧ w < l.automaton.lastWord
    · rw [if_pos hrefused, if_pos hrefused]
      rfl
    · rw [if_neg hrefused, if_neg hrefused]
      simp only [ok_bind]
      rw [outcome_bind, outcome_growInPlace, insert, insertWithin_eq, ← Automaton.add]
      cases l.automaton.add w with
      | error f => rfl
      | ok made =>
        obtain ⟨g, i, ms⟩ := made
        simp only [Run.result_bind, Run.result_liftM_ok, ok_bind, result_noteMerges]
        have htaken : (do
            modify ({ · with lifecycle := .active })
            if i.modified then modify touch
            tallyInPlace i w
            return i.added : InPlace σ Bool).outcome { l with automaton := g } =
              (tallyInPlace i w >>= fun _ => pure i.added).outcome (l.taken g i.modified) := by
          cases hm : i.modified <;> rfl
        refine htaken.trans ?_
        rw [outcome_bind, outcome_tallyInPlace]
        cases ((l.taken g i.modified).tally i w).result <;> rfl

/-- What an operation that answers with another lexicon comes to in place: that lexicon takes the place
of the one that was asked, which stays as it is if the operation is refused. -/
def inPlace {α : Type} (l : Lexicon σ) (r : Except (Error σ) (α × Lexicon σ)) :
    Except (Error σ) (Except (Error σ) α × Lexicon σ) :=
  match r with
  | .ok (a, l') => .ok (.ok a, l')
  | .error (.fault f) => .error (.fault f)
  | .error e => .ok (.error e, l)

/-- Inserting a word is not refused. -/
theorem Valid.inPlace_insert (h : l.Valid) (hl : l.lifecycle ≠ .closed) (w : Word σ) :
    l.inPlace (l.insert w).result = (l.insert w).result.map fun r => (.ok r.1, r.2) := by
  cases hr : (l.insert w).result with
  | ok made => rfl
  | error e =>
    rcases h.insert_error hl hr with ⟨rfl, -⟩ | ⟨rfl, -⟩ <;> rfl

/-- **A word is added in place as it is otherwise**, if its order counts -/
theorem Valid.outcome_add (h : l.Valid) (w : Word σ) :
    (addInPlace true w).outcome l = l.inPlace (l.add w).result := by
  rw [outcome_addInPlace]
  by_cases hl : l.lifecycle = .closed
  · rw [if_pos hl, add_of_closed hl]
    rfl
  · rw [if_neg hl]
    by_cases hw : w < l.automaton.lastWord
    · rw [if_pos ⟨rfl, hw⟩, add_of_lt hl hw]
      rfl
    · rw [if_neg fun hrefused => hw hrefused.2, add_of_not_lt hl hw, h.inPlace_insert hl]

/-- and if it does not. -/
theorem Valid.outcome_addUnchecked (h : l.Valid) (w : Word σ) :
    (addInPlace false w).outcome l = l.inPlace (l.addUnchecked w).result := by
  rw [outcome_addInPlace]
  by_cases hl : l.lifecycle = .closed
  · rw [if_pos hl, addUnchecked_of_closed hl]
    rfl
  · rw [if_neg hl, if_neg (by simp), addUnchecked_of_not_closed hl, h.inPlace_insert hl]

/-! ## Refusals -/

/-- A word is refused where the order counts. -/
def Refuses (l : Lexicon σ) (w : Word σ) : Prop :=
  ∃ e l', (addInPlace true w).outcome l = .ok (.error e, l')

/-- **A refusal leaves the lexicon as it is**, and there are just two reasons for one. -/
theorem outcome_eq_refusal_iff {e : Error σ} :
    (addInPlace ordered w).outcome l = .ok (.error e, l') ↔
      l' = l ∧ (l.lifecycle = .closed ∧ e = .closed ∨
        l.lifecycle ≠ .closed ∧ (ordered ∧ w < l.automaton.lastWord) ∧
          e = .outOfOrder l.automaton.lastWord w) := by
  rw [outcome_addInPlace]
  by_cases hl : l.lifecycle = .closed
  · simp [hl, eq_comm, and_comm]
  · by_cases hrefused : ordered ∧ w < l.automaton.lastWord
    · simp [hl, hrefused, eq_comm, and_comm]
    · rw [if_neg hl, if_neg hrefused]
      cases hr : (l.insert w).result <;> simp [hl, hrefused, Except.map]

/-- A word is refused by a closed lexicon, and if it comes before the last one. -/
theorem refuses_iff : l.Refuses w ↔ l.lifecycle = .closed ∨ w < l.automaton.lastWord := by
  unfold Refuses
  simp only [outcome_eq_refusal_iff]
  by_cases hl : l.lifecycle = .closed <;> simp [hl]

/-- A word that is not refused is inserted, whether its order counts or not. -/
theorem outcome_of_not_refuses (ordered : Bool) (h : ¬l.Refuses w) :
    (addInPlace ordered w).outcome l = (l.insert w).result.map fun r => (.ok r.1, r.2) := by
  rw [refuses_iff, not_or] at h
  rw [outcome_addInPlace, if_neg h.1, if_neg fun hrefused => h.2 hrefused.2]

/-- A word that is not refused is taken, unless the slots or the counts run out. -/
theorem Valid.taken_of_not_refuses (h : l.Valid) (hw : ¬l.Refuses w) :
    (∃ isNew l', (addInPlace true w).outcome l = .ok (.ok isNew, l')) ∨
      ∃ f, (addInPlace true w).outcome l = .error (.fault f) ∧ l.RunsOut w f := by
  rw [outcome_of_not_refuses true hw]
  rw [refuses_iff, not_or] at hw
  cases hr : (l.insert w).result with
  | ok made => exact .inl ⟨made.1, made.2, rfl⟩
  | error e =>
    have he : ∃ f, e = .fault f := by
      rcases h.insert_error hw.1 hr with ⟨he, -⟩ | ⟨he, -⟩ <;> exact ⟨_, he⟩
    obtain ⟨f, rfl⟩ := he
    exact .inr ⟨f, rfl, h.runsOut_of_insert hw.1 hr⟩

/-- The last word is taken again. -/
theorem Valid.exists_insert_lastWord (h : l.Valid) (hl : l.lifecycle ≠ .closed) :
    ∃ isNew l', (l.insert l.automaton.lastWord).result = .ok (isNew, l') := by
  cases hr : (l.insert l.automaton.lastWord).result with
  | ok made => exact ⟨made.1, made.2, rfl⟩
  | error e =>
    rcases h.insert_error hl hr with ⟨-, hpre, -⟩ | ⟨-, hnew, -, hsize⟩
    · exact absurd (List.prefix_refl _) hpre
    · cases hlife : l.lifecycle with
      | active => exact absurd (h.holds_lastWord hlife) hnew
      | closed => exact absurd hlife hl
      | empty =>
        have hnone : l.arena.listing l.root = [] :=
          List.eq_nil_iff_forall_not_mem.2 fun v hv =>
            h.no_words hlife v (h.mem_listing_iff.1 hv)
        rw [h.size_eq, hnone] at hsize
        cases hsize

/-- Which words a lexicon refuses, and that a refusal leaves no trace. -/
structure Refusals (l : Lexicon σ) : Prop where
  /-- In place, words are added as they are otherwise. -/
  add_eq : ∀ w, (addInPlace true w).outcome l = l.inPlace (l.add w).result
  addUnchecked_eq : ∀ w, (addInPlace false w).outcome l = l.inPlace (l.addUnchecked w).result
  /-- The lexicon is closed. -/
  closed_iff : ∀ w,
    (∃ l', (addInPlace true w).outcome l = .ok (.error .closed, l')) ↔ l.lifecycle = .closed
  /-- Otherwise, the word comes before the one on the path. -/
  outOfOrder_iff : ∀ w p v,
    (∃ l', (addInPlace true w).outcome l = .ok (.error (.outOfOrder p v), l')) ↔
      l.lifecycle ≠ .closed ∧ w < l.automaton.lastWord ∧ p = l.automaton.lastWord ∧ v = w
  /-- There is no other reason, and the lexicon is as it was, whether the order counts or not. -/
  unchanged : ∀ ordered w e l', (addInPlace ordered w).outcome l = .ok (.error e, l') →
    l' = l ∧ (e = .closed ∨ ordered ∧ e = .outOfOrder l.automaton.lastWord w)
  /-- A part of the last word is refused, -/
  prefix_iff : l.lifecycle ≠ .closed → ∀ w, w <+: l.automaton.lastWord →
    (l.Refuses w ↔ w ≠ l.automaton.lastWord)
  /-- the empty word with it, -/
  nil_iff : l.lifecycle ≠ .closed → (l.Refuses [] ↔ l.automaton.lastWord ≠ [])
  /-- and what goes on from the last word is not. -/
  extension : l.lifecycle ≠ .closed → ∀ w, l.automaton.lastWord <+: w → ¬l.Refuses w
  /-- The last word itself is taken, -/
  again : l.lifecycle ≠ .closed →
    ∃ isNew l', (addInPlace true l.automaton.lastWord).outcome l = .ok (.ok isNew, l')
  /-- and so is any other word that is not refused, unless the slots or the counts run out. -/
  taken : ∀ w, ¬l.Refuses w → (∃ isNew l', (addInPlace true w).outcome l = .ok (.ok isNew, l')) ∨
    ∃ f, (addInPlace true w).outcome l = .error (.fault f) ∧ l.RunsOut w f
  /-- It is taken as it is where the order does not count. -/
  same : ∀ w, ¬l.Refuses w → (addInPlace true w).outcome l = (addInPlace false w).outcome l ∧
    l.add w = l.addUnchecked w

/-- **Words are refused for their order alone**, whatever operations have led to a lexicon. -/
theorem Reachable.refusals (h : l.Reachable) : l.Refusals where
  add_eq := h.valid.outcome_add
  addUnchecked_eq := h.valid.outcome_addUnchecked
  closed_iff w := by simp [outcome_eq_refusal_iff]
  outOfOrder_iff w p v := by simp [outcome_eq_refusal_iff]
  unchanged ordered w e l' he := by
    obtain ⟨rfl, ⟨-, rfl⟩ | ⟨-, ⟨hordered, -⟩, rfl⟩⟩ := outcome_eq_refusal_iff.1 he
    · exact ⟨rfl, .inl rfl⟩
    · exact ⟨rfl, .inr ⟨hordered, rfl⟩⟩
  prefix_iff hl w hw := by
    rw [refuses_iff, or_iff_right hl, Word.lt_iff_of_isPrefix hw]
  nil_iff hl := by
    rw [refuses_iff, or_iff_right hl, Word.lt_iff_of_isPrefix List.nil_prefix, ne_comm]
  extension hl w hw := by
    rw [refuses_iff, or_iff_right hl]
    exact Word.not_lt_of_isPrefix hw
  again hl := by
    obtain ⟨isNew, l', hr⟩ := h.valid.exists_insert_lastWord hl
    have hw : ¬l.Refuses l.automaton.lastWord := by
      rw [refuses_iff, or_iff_right hl]
      exact List.lt_irrefl _
    exact ⟨isNew, l', by rw [outcome_of_not_refuses true hw, hr]; rfl⟩
  taken w hw := h.valid.taken_of_not_refuses hw
  same w hw := by
    refine ⟨(outcome_of_not_refuses true hw).trans (outcome_of_not_refuses false hw).symm, ?_⟩
    rw [refuses_iff, not_or] at hw
    rw [add_of_not_lt hw.1 hw.2, addUnchecked_of_not_closed hw.1]

/-- After 13 was added behind 2, out of order, 1 is a part of the last word and refused, 135 goes on
from it and 2 comes behind it. -/
theorem refusals_of_out_of_order :
    ∃ l : Lexicon UInt8, l = (new 0).after [.add [1, 2], .add [2], .addUnchecked [1, 3]] ∧
      l.Refusals ∧ (addInPlace true [1]).outcome l = .ok (.error (.outOfOrder [1, 3] [1]), l) ∧
      ¬l.Refuses [1, 3, 5] ∧ l.add [2] = l.addUnchecked [2] := by
  obtain ⟨l, hl⟩ : ∃ l : Lexicon UInt8,
      l = (new 0).after [.add [1, 2], .add [2], .addUnchecked [1, 3]] := ⟨_, rfl⟩
  have hrun : (l.lifecycle, l.automaton.lastWord) = (.active, [1, 3]) := by
    subst hl
    cbv
  simp only [Prod.mk.injEq] at hrun
  obtain ⟨hlife, hlast⟩ := hrun
  have hreach : l.Reachable := hl ▸ .after (.new 0) _
  have hrefusals : l.Refusals := hreach.refusals
  have hopen : l.lifecycle ≠ .closed := by
    rw [hlife]
    decide
  obtain ⟨l', hrefused⟩ := (hrefusals.outOfOrder_iff [1] [1, 3] [1]).2
    ⟨hopen, by rw [hlast]; decide, hlast.symm, rfl⟩
  obtain ⟨rfl, -⟩ := hrefusals.unchanged true [1] _ l' hrefused
  refine ⟨l', hl, hrefusals, hrefused, hrefusals.extension hopen _ ?_, (hrefusals.same [2] ?_).2⟩
  · rw [hlast]
    decide
  · rw [refuses_iff, hlast]
    exact not_or.2 ⟨hopen, by decide⟩

end Lexicon

end WordGraph
