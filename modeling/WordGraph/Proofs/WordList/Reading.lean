import Mathlib
import WordGraph.Proofs.Lexicon.Batch
import WordGraph.WordList.Buffered

/-!
# Reading is building

Reading a word list comes to the same as building from the words on its lines, whether the lines are split
first or read one after the other into one buffer. What is left out, an empty line or a comment, takes no
part: a word is compared with the last one in front of it that was kept. The first line that is no text or
whose word comes before that one gives the error.

* `Split`, `split_lines` — the lines of some bytes
* `readLoop_eq_addLines` — nothing is left in the buffer from one line to the next
* `addLines_eq_addAll` — lines that are texts are their words
* `Offends`, `exists_offends_iff` — the lines that give errors
* `Outcome`, `read_outcome` — what comes of reading a word list
-/

namespace WordGraph

variable {σ : Type} [Symbol σ]

/-! ## Room for the words of a list -/

namespace Lexicon

/-- The slots run out for the words of a list only if there are more symbols and states than slots. -/
theorem Valid.lt_of_addAll_arenaFull {l : Lexicon σ} {ws : List (Word σ)} (h : l.Valid)
    (hr : (l.addAll ws).result = .error (.fault .arenaFull)) :
    slotLimit < l.stateCount + total List.length ws := by
  induction ws generalizing l with
  | nil => cases hr
  | cons w ws ih =>
    rw [total_cons]
    cases hadd : (l.add w).result with
    | error e =>
      rw [addAll_cons_of_error hadd] at hr
      cases hr
      obtain ⟨hl, hins⟩ := insert_of_add_fault hadd
      rcases h.insert_error hl hins with ⟨-, -, hlt⟩ | ⟨he, -⟩
      · omega
      · cases he
    | ok made =>
      obtain ⟨isNew, l'⟩ := made
      rw [addAll_cons_of_ok hadd] at hr
      obtain ⟨hl, -, hins⟩ := insert_of_add hadd
      obtain ⟨i, ms, hrun⟩ := exists_add_of_insert hins
      have hlive : l'.stateCount ≤ l.stateCount + w.length := ((h.growing hl).add_ok hrun).live_le
      have hlt := ih (h.insert_ok hl hins).valid hr
      omega

end Lexicon

namespace WordList

open Lexicon

variable {l : Lexicon Char} {line bs : Bytes} {ls : List Bytes} {text : List Char} {w : Word Char}
  {i : Nat} {e : ReadError} {identity : Nat}

/-! ## Lines -/

theorem linesFrom_eq (done : List Bytes) (line bs : Bytes) :
    linesFrom done line bs = done.reverse ++ linesFrom [] line bs := by
  induction bs generalizing done line with
  | nil =>
    unfold linesFrom
    split <;> simp
  | cons b bs ih =>
    unfold linesFrom
    split
    · rw [ih ((b :: line).reverse :: done), ih [(b :: line).reverse]]
      simp
    · exact ih done (b :: line)

/-- The beginning of a line goes in front of what is read next. -/
theorem linesFrom_nil_eq (line bs : Bytes) :
    linesFrom [] line bs =
      if line = [] ∧ bs = [] then [] else (line.reverse ++ (splitLine bs).1) :: lines (splitLine bs).2 := by
  induction bs generalizing line with
  | nil =>
    unfold linesFrom
    cases line <;> simp [splitLine, lines, linesFrom]
  | cons b bs ih =>
    rw [if_neg (by simp)]
    unfold linesFrom splitLine
    split
    · rw [linesFrom_eq]
      simp [lines]
    · rw [ih, if_neg (by simp)]
      simp

@[simp] theorem lines_nil : lines [] = [] := rfl

/-- The first line stands in front of the others. -/
theorem lines_of_ne_nil (h : bs ≠ []) : lines bs = (splitLine bs).1 :: lines (splitLine bs).2 := by
  rw [lines, linesFrom_nil_eq, if_neg fun hnil => h hnil.2]
  rfl

theorem splitLine_ne_nil (h : bs ≠ []) : (splitLine bs).1 ≠ [] := by
  cases bs with
  | nil => exact absurd rfl h
  | cons b bs =>
    unfold splitLine
    split <;> simp

/-- What is left is shorter than what there was. -/
theorem length_splitLine_lt (h : bs ≠ []) : (splitLine bs).2.length < bs.length := by
  have hlength := congrArg List.length (append_splitLine bs)
  rw [List.length_append] at hlength
  have hpos := List.length_pos_of_ne_nil (splitLine_ne_nil h)
  omega

/-- A line feed ends the line. -/
theorem lineFeed_not_mem_splitLine (bs : Bytes) : lineFeed ∉ (splitLine bs).1.dropLast := by
  fun_induction splitLine bs with
  | case1 => simp
  | case2 => simp
  | case3 b bs hb line rest hline ih =>
    rw [hline] at ih
    cases line with
    | nil => simp
    | cons c line =>
      rw [List.dropLast_cons_cons, List.mem_cons]
      rintro (hc | hc)
      · exact hb hc.symm
      · exact ih hc

/-- A line goes on up to a line feed unless nothing is left behind it. -/
theorem getLast?_splitLine (h : (splitLine bs).2 ≠ []) :
    (splitLine bs).1.getLast? = some lineFeed := by
  fun_induction splitLine bs with
  | case1 => exact absurd rfl h
  | case2 => rfl
  | case3 b bs _ line rest hline ih =>
    rw [hline] at ih
    rw [List.getLast?_cons, ih h]
    rfl

/-- Bytes are split into lines behind each line feed. -/
structure Split (bs : Bytes) (ls : List Bytes) : Prop where
  flatten_eq : ls.flatten = bs
  ne_nil : ∀ line ∈ ls, line ≠ []
  /-- A line feed stands at the end of a line, if anywhere. -/
  not_mem : ∀ line ∈ ls, lineFeed ∉ line.dropLast
  /-- Only the last line may lack a line feed. -/
  getLast?_eq : ∀ line ∈ ls.dropLast, line.getLast? = some lineFeed

theorem split_lines (bs : Bytes) : Split bs (lines bs) := by
  induction hn : bs.length using Nat.strongRecOn generalizing bs with
  | ind n ih =>
    by_cases hbs : bs = []
    · subst hbs
      exact ⟨rfl, by simp, by simp, by simp⟩
    · obtain ⟨-, hne, hnot, hlast⟩ := ih _ (hn ▸ length_splitLine_lt hbs) (splitLine bs).2 rfl
      refine ⟨flatten_lines bs, ?_, ?_, ?_⟩ <;> rw [lines_of_ne_nil hbs]
      · exact List.forall_mem_cons.2 ⟨splitLine_ne_nil hbs, hne⟩
      · exact List.forall_mem_cons.2 ⟨lineFeed_not_mem_splitLine bs, hnot⟩
      · by_cases hrest : (splitLine bs).2 = []
        · simp [hrest]
        · rw [List.dropLast_cons_of_ne_nil (by rw [lines_of_ne_nil hrest]; simp)]
          exact List.forall_mem_cons.2 ⟨getLast?_splitLine hrest, hlast⟩

/-! ## Words on lines -/

/-- The word on a line of bytes, if the line is a text with a word. -/
def wordOf? (line : Bytes) : Option (Word Char) := (text? line).bind word?

/-- The words on those lines that have one. -/
def keptWords (ls : List Bytes) : List (Word Char) := ls.filterMap wordOf?

theorem keptWords_cons_of_none (h : wordOf? line = none) :
    keptWords (line :: ls) = keptWords ls := List.filterMap_cons_none h

theorem keptWords_cons_of_some (h : wordOf? line = some w) :
    keptWords (line :: ls) = w :: keptWords ls := List.filterMap_cons_some h

/-- All lines are texts. -/
def AllTexts (ls : List Bytes) : Prop := ∀ line ∈ ls, (text? line).isSome

theorem addLines_cons_of_not_text (h : text? line = none) :
    addLines l (line :: ls) = .error .notText := by
  rw [addLines, h]

/-- A line without a word is left out. -/
theorem addLines_cons_of_no_word (h : text? line = some text) (hw : wordOf? line = none) :
    addLines l (line :: ls) = addLines l ls := by
  rw [wordOf?, h, Option.bind_some] at hw
  simp only [addLines, h, hw]

theorem addLines_cons_of_word (h : wordOf? line = some w) :
    addLines l (line :: ls) = (l.add w).result.mapError .refused >>= fun r => addLines r.2 ls := by
  obtain ⟨text, htext, hword⟩ := Option.bind_eq_some_iff.1 h
  simp only [addLines, htext, hword]
  cases (l.add w).result <;> rfl

theorem addLines_append (l : Lexicon Char) (ls ms : List Bytes) :
    addLines l (ls ++ ms) = addLines l ls >>= fun l => addLines l ms := by
  induction ls generalizing l with
  | nil => rfl
  | cons line ls ih =>
    rw [List.cons_append]
    cases htext : text? line with
    | none =>
      rw [addLines_cons_of_not_text htext, addLines_cons_of_not_text htext]
      rfl
    | some text =>
      cases hword : wordOf? line with
      | none => rw [addLines_cons_of_no_word htext hword, addLines_cons_of_no_word htext hword, ih]
      | some w =>
        rw [addLines_cons_of_word hword, addLines_cons_of_word hword]
        cases (l.add w).result with
        | error e => rfl
        | ok r => exact ih r.2

/-- **Adding lines that are texts is adding the words on them.** -/
theorem addLines_eq_addAll (h : AllTexts ls) (l : Lexicon Char) :
    addLines l ls = (l.addAll (keptWords ls)).result.mapError .refused := by
  induction ls generalizing l with
  | nil => rfl
  | cons line ls ih =>
    obtain ⟨htext, htexts⟩ := List.forall_mem_cons.1 h
    obtain ⟨text, htext⟩ := Option.isSome_iff_exists.1 htext
    cases hword : wordOf? line with
    | none =>
      rw [addLines_cons_of_no_word htext hword, ih htexts, keptWords_cons_of_none hword]
    | some w =>
      rw [addLines_cons_of_word hword, keptWords_cons_of_some hword]
      cases hadd : (l.add w).result with
      | error e =>
        rw [addAll_cons_of_error hadd]
        rfl
      | ok r =>
        rw [addAll_cons_of_ok hadd]
        exact ih htexts r.2

/-! ## One buffer -/

theorem readLoop_of_error {buffer : List Char} (h : readLine buffer bs = .error e) :
    readLoop l buffer bs = .error e := by
  rw [readLoop]
  split
  · next h' =>
    rw [h] at h'
    cases h'
    rfl
  · next h' =>
    rw [h] at h'
    cases h'

/-- What is done with a line that is read. -/
theorem readLoop_of_ok {buffer buffer' : List Char} {n : Nat} {rest : Bytes}
    (h : readLine buffer bs = .ok (n, buffer', rest)) :
    readLoop l buffer bs =
      if n = 0 then .ok l
      else
        match word? buffer' with
        | none => readLoop l [] rest
        | some w => (l.add w).result.mapError .refused >>= fun r => readLoop r.2 [] rest := by
  rw [readLoop]
  split
  · next h' =>
    rw [h] at h'
    cases h'
  · next h' =>
    rw [h] at h'
    cases h'
    unfold word?
    dsimp only
    split
    · rfl
    · split
      · rfl
      · dsimp only
        cases (l.add (Text.trimEnd buffer')).result <;> rfl

/-- **Reading line by line into one buffer is adding the lines**: the buffer is empty before each of
them. -/
theorem readLoop_eq_addLines (l : Lexicon Char) (bs : Bytes) :
    readLoop l [] bs = addLines l (lines bs) := by
  induction hn : bs.length using Nat.strongRecOn generalizing l bs with
  | ind n ih =>
    by_cases hbs : bs = []
    · subst hbs
      have hread : readLine [] [] = .ok (0, [], []) := by decide
      rw [readLoop_of_ok hread]
      rfl
    · have hrest := fun l => ih _ (hn ▸ length_splitLine_lt hbs) l (splitLine bs).2 rfl
      rw [lines_of_ne_nil hbs]
      cases htext : text? (splitLine bs).1 with
      | none =>
        have hread : readLine [] bs = .error .notText := by
          simp only [readLine, htext]
        rw [addLines_cons_of_not_text htext, readLoop_of_error hread]
      | some text =>
        have hread : readLine [] bs =
            .ok ((splitLine bs).1.length, text, (splitLine bs).2) := by
          simp only [readLine, htext, List.nil_append]
        have hpos : (splitLine bs).1.length ≠ 0 := fun hzero =>
          splitLine_ne_nil hbs (List.eq_nil_of_length_eq_zero hzero)
        have hword : wordOf? (splitLine bs).1 = word? text := by rw [wordOf?, htext, Option.bind_some]
        rw [readLoop_of_ok hread, if_neg hpos]
        cases hw : word? text with
        | none =>
          rw [addLines_cons_of_no_word htext (hword.trans hw)]
          exact hrest l
        | some w =>
          rw [addLines_cons_of_word (hword.trans hw)]
          exact congrArg (_ >>= ·) (funext fun r => hrest r.2)

/-! ## Lines that give errors -/

/-- The line at a position gives an error: it is not a text, or its word comes before the last word in front
of it. -/
inductive Offends (ls : List Bytes) (i : Nat) : ReadError → Prop
  | notText {line : Bytes} (hline : ls[i]? = some line) (h : text? line = none) :
      Offends ls i .notText
  | outOfOrder {line : Bytes} {v w : Word Char} (hline : ls[i]? = some line)
      (hw : wordOf? line = some w) (hv : (keptWords (ls.take i)).getLast? = some v) (h : w < v) :
      Offends ls i (.refused (.outOfOrder v w))

/-- A line gives an error as well when others come behind it. -/
theorem Offends.append (h : Offends ls i e) (ms : List Bytes) : Offends (ls ++ ms) i e := by
  have hget : ∀ {line}, ls[i]? = some line → i < ls.length ∧ (ls ++ ms)[i]? = some line := by
    intro line hline
    have hi := (List.getElem?_eq_some_iff.1 hline).1
    exact ⟨hi, by rw [List.getElem?_append_left hi, hline]⟩
  cases h with
  | notText hline h => exact .notText (hget hline).2 h
  | outOfOrder hline hw hv h =>
    refine .outOfOrder (hget hline).2 hw ?_ h
    rw [List.take_append_of_le_length (Nat.le_of_lt (hget hline).1), hv]

/-- Where no line gives an error, the lines are texts and their words are in order. -/
theorem ascending_of_not_offends (h : ∀ i e, ¬Offends ls i e) :
    AllTexts ls ∧ Ascending (keptWords ls) := by
  induction ls using List.reverseRecOn with
  | nil => exact ⟨by simp [AllTexts], .nil⟩
  | append_singleton ls line ih =>
    obtain ⟨htexts, hasc⟩ := ih fun i e hoff => h i e (hoff.append [line])
    have hline : (ls ++ [line])[ls.length]? = some line := by simp
    have htake : (ls ++ [line]).take ls.length = ls := by simp
    constructor
    · refine List.forall_mem_append.2 ⟨htexts, List.forall_mem_singleton.2 ?_⟩
      cases htext : text? line with
      | none => exact absurd (.notText hline htext) (h _ _)
      | some text => rfl
    · rw [keptWords, List.filterMap_append]
      refine hasc.append ?_ fun v hv w hw => ?_
      · cases hword : wordOf? line with
        | none => simp [hword]
        | some w => simp [hword]
      · intro hlt
        have hword : wordOf? line = some w := by
          cases hword : wordOf? line with
          | none => simp [hword] at hw
          | some w' => simpa [hword] using hw
        exact h _ _ (.outOfOrder hline hword (by rw [htake]; exact hv) hlt)

/-- **Some line gives an error just if not all lines are texts or the words on them are not in order.** -/
theorem exists_offends_iff :
    (∃ i e, Offends ls i e) ↔ ¬(AllTexts ls ∧ Ascending (keptWords ls)) := by
  constructor
  · rintro ⟨i, e, hoff⟩ ⟨htexts, hasc⟩
    cases hoff with
    | notText hline h =>
      have htext := htexts _ (List.mem_of_getElem? hline)
      rw [h] at htext
      cases htext
    | @outOfOrder line v w hline hw hv h =>
      obtain ⟨hi, hget⟩ := List.getElem?_eq_some_iff.1 hline
      have hsplit : keptWords ls = keptWords (ls.take i) ++ w :: keptWords (ls.drop (i + 1)) := by
        rw [← keptWords_cons_of_some (hget ▸ hw), keptWords, keptWords, ← List.drop_eq_getElem_cons hi,
          keptWords, ← List.filterMap_append, List.take_append_drop]
      rw [hsplit, Ascending, List.isChain_append] at hasc
      exact hasc.2.2 v hv w rfl h
  · intro h
    by_contra hno
    exact h (ascending_of_not_offends fun i e hoff => hno ⟨i, e, hoff⟩)

/-- The first line that gives an error. -/
def FirstOffends (ls : List Bytes) (i : Nat) (e : ReadError) : Prop :=
  Offends ls i e ∧ ∀ j < i, ∀ e', ¬Offends ls j e'

theorem exists_firstOffends (h : ∃ i e, Offends ls i e) : ∃ i e, FirstOffends ls i e := by
  classical
  obtain ⟨e, he⟩ := Nat.find_spec h
  exact ⟨Nat.find h, e, he, fun j hj e' hoff => Nat.find_min h hj ⟨e', hoff⟩⟩

/-- In front of the first line that gives an error, all is well. -/
theorem FirstOffends.ascending (h : FirstOffends ls i e) :
    AllTexts (ls.take i) ∧ Ascending (keptWords (ls.take i)) := by
  refine ascending_of_not_offends fun j e' hoff => ?_
  have hj : j < i := by
    have hlt : j < (ls.take i).length := by
      cases hoff with
      | notText hline => exact (List.getElem?_eq_some_iff.1 hline).1
      | outOfOrder hline => exact (List.getElem?_eq_some_iff.1 hline).1
    exact Nat.lt_of_lt_of_le hlt (List.length_take_le _ _)
  exact h.2 j hj e' (List.take_append_drop i ls ▸ hoff.append (ls.drop i))

/-! ## Symbols and bytes -/

theorem length_le_utf8Len (cs : List Char) : cs.length ≤ String.utf8Len cs := by
  induction cs with
  | nil => exact Nat.le_refl 0
  | cons c cs ih =>
    have hpos := Char.utf8Size_pos c
    rw [List.length_cons, String.utf8Len_cons]
    omega

/-- A text has no more characters than bytes. -/
theorem length_le_of_text (h : text? line = some text) : text.length ≤ line.length := by
  obtain ⟨s, hs, rfl⟩ := Option.map_eq_some_iff.1 h
  unfold String.fromUTF8? at hs
  split at hs
  · next hvalid =>
    cases hs
    calc _ ≤ String.utf8Len (String.fromUTF8 ⟨line.toArray⟩ hvalid).toList := length_le_utf8Len _
      _ = (String.fromUTF8 ⟨line.toArray⟩ hvalid).utf8ByteSize := by
        rw [← String.utf8ByteSize_ofList, String.ofList_toList]
      _ = line.length := rfl
  · cases hs

/-- A word has a symbol, and no more of them than its line has bytes. -/
theorem length_of_wordOf (h : wordOf? line = some w) : 0 < w.length ∧ w.length ≤ line.length := by
  obtain ⟨text, htext, hword⟩ := Option.bind_eq_some_iff.1 h
  unfold word? at hword
  dsimp only at hword
  split at hword
  · cases hword
  · next hkept =>
    cases hword
    rw [Bool.or_eq_true, not_or, List.isEmpty_iff] at hkept
    obtain ⟨t, ht, -⟩ := Text.exists_append_trimEnd text
    have hle := congrArg List.length ht
    rw [List.length_append] at hle
    have := length_le_of_text htext
    exact ⟨List.length_pos_of_ne_nil hkept.1, by omega⟩

/-- The words on some lines have no more symbols than the lines have bytes, and are no more either. -/
theorem length_keptWords_le (ls : List Bytes) :
    (keptWords ls).length ≤ ls.flatten.length ∧
      total List.length (keptWords ls) ≤ ls.flatten.length := by
  induction ls with
  | nil => exact ⟨Nat.le_refl 0, Nat.le_refl 0⟩
  | cons line ls ih =>
    rw [List.flatten_cons, List.length_append]
    cases hword : wordOf? line with
    | none =>
      rw [keptWords_cons_of_none hword]
      omega
    | some w =>
      have := length_of_wordOf hword
      rw [keptWords_cons_of_some hword, List.length_cons, total_cons]
      omega

/-! ## What comes of reading -/

/-- The slots run out for the words on some lines, which have 2^32 bytes at least. Building from the words
comes to the same. -/
def RunsOut (identity : Nat) (ls : List Bytes) (r : Except ReadError (Lexicon Char)) : Prop :=
  slotLimit ≤ ls.flatten.length ∧ ∃ f, (ofWords identity (keptWords ls)).result = .error (.fault f) ∧
    r = .error (.refused (.fault f))

/-- Words in order are added one after the other unless the slots run out, for which it takes 2^32 bytes. -/
theorem exists_addAll (identity : Nat) (h : Ascending (keptWords ls)) :
    (∃ l life, ((new identity).addAll (keptWords ls)).result = .ok l ∧ life ≠ .closed ∧
        Built l {v | v ∈ keptWords ls} (([] :: keptWords ls).getLast (by simp)) life) ∨
      slotLimit ≤ ls.flatten.length ∧
        ∃ f, ((new identity).addAll (keptWords ls)).result = .error (.fault f) := by
  have hasc : Ascending ([] :: keptWords ls) :=
    List.isChain_cons.2 ⟨fun w _ => List.not_lt_nil w, h⟩
  obtain ⟨hcount, hlength⟩ := length_keptWords_le ls
  rcases (Built.new identity).addAll (by decide) hasc with ⟨l, life, hr, hl, hb⟩ | hr | ⟨hr, hle⟩
  · rw [Set.empty_union] at hb
    exact .inl ⟨l, life, hr, hl, hb⟩
  · have hlt := (Built.new identity).ordered.valid.lt_of_addAll_arenaFull hr
    have hone : (new identity : Lexicon Char).stateCount = 1 := rfl
    exact .inr ⟨by omega, _, hr⟩
  · rw [Set.empty_union, ← List.coe_toFinset, Set.encard_coe_eq_coe_finsetCard] at hle
    have hcard := (keptWords ls).toFinset_card_le
    have hle : countLimit ≤ (keptWords ls).toFinset.card := by exact_mod_cast hle
    have hlimit : slotLimit ≤ countLimit := by decide
    exact .inr ⟨by omega, _, hr⟩

/-- What comes of reading the lines of a word list. -/
structure Outcome (identity : Nat) (ls : List Bytes) (r : Except ReadError (Lexicon Char)) : Prop where
  /-- Texts with words in order become what is built from the words. -/
  built : AllTexts ls → Ascending (keptWords ls) →
    (∃ l, (ofWords identity (keptWords ls)).result = .ok l ∧ r = .ok l) ∨ RunsOut identity ls r
  /-- Other lines give the error of the first of them that gives one. -/
  offended : ¬(AllTexts ls ∧ Ascending (keptWords ls)) →
    ∃ i e, FirstOffends ls i e ∧ (r = .error e ∨ RunsOut identity (ls.take i) r)

/-- Behind words in order, the first line that gives an error is where adding lines ends. -/
theorem FirstOffends.addLines_drop {last : Word Char} {life : Lifecycle} (h : FirstOffends ls i e)
    (hl : life ≠ .closed) (hlast : ∀ v ∈ (keptWords (ls.take i)).getLast?, v = last)
    (hb : Ordered l {v | v ∈ keptWords (ls.take i)} last life) :
    addLines l (ls.drop i) = .error e := by
  have hdrop : ∀ {line}, ls[i]? = some line → ls.drop i = line :: ls.drop (i + 1) := by
    intro line hline
    obtain ⟨hi, rfl⟩ := List.getElem?_eq_some_iff.1 hline
    exact List.drop_eq_getElem_cons hi
  cases h.1 with
  | notText hline htext => rw [hdrop hline, addLines_cons_of_not_text htext]
  | outOfOrder hline hw hv hlt =>
    obtain rfl := hlast _ hv
    have hword := hb.lastWord_eq hl
    rw [hdrop hline, addLines_cons_of_word hw,
      add_of_lt (hb.lifecycle_eq ▸ hl) (hword.symm ▸ hlt), hword]
    rfl

/-- Where adding the words on some lines faults, building from them does. -/
theorem runsOut_of_addAll {r : Except ReadError (Lexicon Char)} {f : Fault}
    (hbytes : slotLimit ≤ ls.flatten.length)
    (hadd : ((new identity).addAll (keptWords ls)).result = .error (.fault f))
    (hr : r = .error (.refused (.fault f))) : RunsOut identity ls r := by
  refine ⟨hbytes, f, ?_, hr⟩
  rw [ofWords_eq, Run.result_bind, hadd]
  rfl

/-- Words are added up to the first line that gives an error, or all of them. -/
theorem outcome_read (identity : Nat) (bs : Bytes) :
    Outcome identity (lines bs) (read identity bs) := by
  constructor
  case built =>
    intro htexts hasc
    rw [read, addLines_eq_addAll htexts]
    rcases exists_addAll identity hasc with ⟨l, life, hadd, -, hb⟩ | ⟨hbytes, f, hadd⟩
    · obtain ⟨l', hclose, -⟩ := hb.close_batch
      refine .inl ⟨l', ?_, ?_⟩
      · rw [ofWords_eq, Run.result_bind, hadd, ok_bind, hclose]
      · rw [hadd]
        show l.close.result.mapError _ = _
        rw [hclose]
        rfl
    · refine .inr (runsOut_of_addAll hbytes hadd ?_)
      rw [hadd]
      rfl
  case offended =>
    intro hno
    obtain ⟨i, e, hfirst⟩ := exists_firstOffends (exists_offends_iff.2 hno)
    obtain ⟨htexts, hasc⟩ := hfirst.ascending
    refine ⟨i, e, hfirst, ?_⟩
    -- the lines in front are added as their words
    have hread : read identity bs =
        (((new identity).addAll (keptWords ((lines bs).take i))).result.mapError .refused >>=
          fun l => addLines l ((lines bs).drop i)) >>= fun l => l.close.result.mapError .refused := by
      rw [← addLines_eq_addAll htexts, ← addLines_append, List.take_append_drop]
      rfl
    rcases exists_addAll identity hasc with ⟨l, life, hadd, hlife, hb⟩ | ⟨hbytes, f, hadd⟩
    · left
      have hlast : ∀ v ∈ (keptWords ((lines bs).take i)).getLast?,
          v = ([] :: keptWords ((lines bs).take i)).getLast (by simp) := by
        intro v hv
        obtain ⟨hne, rfl⟩ := List.mem_getLast?_eq_getLast hv
        exact (List.getLast_cons hne).symm
      have hstop := hfirst.addLines_drop hlife hlast hb.ordered
      rw [hread, hadd]
      show (addLines l ((lines bs).drop i) >>= fun l => l.close.result.mapError .refused) = _
      rw [hstop]
      rfl
    · refine .inr (runsOut_of_addAll hbytes hadd ?_)
      rw [hread, hadd]
      rfl

/-- **Reading a word list is building from the words on its lines**: the words are what is left of the lines
without white space at the end, without empty lines and comments. If a line is not a text or a word comes
before the last one that was kept, the first such line gives the error. One buffer for all lines does as
well. -/
theorem read_spec (identity : Nat) (bs : Bytes) :
    Split bs (lines bs) ∧ readBuffered identity bs = read identity bs ∧
      Outcome identity (lines bs) (read identity bs) := by
  refine ⟨split_lines bs, ?_, outcome_read identity bs⟩
  rw [readBuffered, readLoop_eq_addLines]
  rfl

/-- Between the words b and a there are a comment and an empty line. -/
example : read 0 [0x62, 0x0A, 0x23, 0x61, 0x0A, 0x0A, 0x61] =
    .error (.refused (.outOfOrder ['b'] ['a'])) := by cbv

end WordList

end WordGraph
