import WordGraph.Lexicon.History
import WordGraph.Proofs.Arena.Longest
import WordGraph.Proofs.Automaton.Minimal
import WordGraph.Proofs.Numbering.Count
import WordGraph.Proofs.Run

/-!
# Valid lexicons

What holds of a lexicon between any two operations: its automaton has the shape of a growing one, its
life agrees with the path of the last word, and what it remembers of its words is right.

* `Valid` — the invariant
* `Valid.length_le`, `Valid.exists_length_eq` — what it says of its longest word is right
* `Valid.eq_of_closed` — a closed lexicon is minimal
* `Valid.numbering_spec`, `recount_spec` — counting runs through
* `addWithin_eq_ok_iff`, `add_cases`, `addUnchecked_cases` — what is answered to a word
* `Valid.insertWithin_ok`, `Valid.insertWithin_error` — adding a word, in order or not
* `Valid.close_spec`, `clear_spec` — closing and clearing
-/

namespace WordGraph.Lexicon

open Arena Automaton

variable {σ : Type} [Symbol σ] {l l' : Lexicon σ} {g : Automaton σ} {i : Insertion} {w v : Word σ}
  {isNew : Bool} {e : Error σ} {limit : Option Nat}

/-- The numbering that a lexicon remembers is the one of its graph. -/
def NumberingRight (l : Lexicon σ) : Prop :=
  ∀ n, l.numbering? = some n → Numbering.compute l.arena l.root = .ok (some n)

/-- The longest word of a lexicon is as long as it says. -/
def LongestRight (l : Lexicon σ) : Prop := ∃ o, Longest l.Holds o ∧ o.getD 0 = l.longest

/-- The invariant of lexicons. -/
structure Valid (l : Lexicon σ) : Prop where
  sound : l.automaton.Sound
  isOpen : l.lifecycle ≠ .closed → l.automaton.Open
  path_eq : l.lifecycle ≠ .active → l.automaton.path = []
  end_final : l.lifecycle = .active →
    ∃ x, l.arena.get? (endOf l.root l.automaton.path) = some x ∧ x.isFinal
  no_words : l.lifecycle = .empty → ∀ w, ¬l.Holds w
  size_eq : l.size = (l.arena.listing l.root).length
  size_lt : l.size < countLimit
  longest : l.LongestRight
  numbering : l.NumberingRight

namespace Valid

theorem productive (h : l.Valid) : l.automaton.Productive := by
  intro hne
  by_cases hl : l.lifecycle = .active
  · obtain ⟨x, hx, hf⟩ := h.end_final hl
    exact ⟨[], (accepts_nil_iff_of_get? hx).2 hf⟩
  · exact absurd (h.path_eq hl) hne

/-- A lexicon that is not closed can grow. -/
theorem growing (h : l.Valid) (hl : l.lifecycle ≠ .closed) : l.automaton.Growing :=
  ⟨h.sound, h.isOpen hl, h.productive⟩

theorem mem_listing_iff (h : l.Valid) : w ∈ l.arena.listing l.root ↔ l.Holds w :=
  Arena.mem_listing_iff h.sound.dag_root

/-- Every edge leads to a state from which a word is accepted. -/
theorem exists_accepts_of_edge (h : l.Valid) {s t : StateId} {c : σ} (he : l.arena.Edge s c t) :
    ∃ w, l.arena.Accepts t w := by
  refine h.sound.exists_accepts h.productive (h.sound.edge_live he) ?_
  rintro rfl
  exact h.sound.not_edge_root he

/-- A lexicon that has words and takes more is active. -/
theorem lifecycle_eq (h : l.Valid) (hl : l.lifecycle ≠ .closed) (hw : l.Holds w) :
    l.lifecycle = .active := by
  cases hlife : l.lifecycle with
  | empty => exact absurd hw (h.no_words hlife w)
  | active => rfl
  | closed => exact absurd hlife hl

/-- The last word of an active lexicon is one of its words. -/
theorem holds_lastWord (h : l.Valid) (hl : l.lifecycle = .active) :
    l.Holds l.automaton.lastWord := by
  obtain ⟨x, hx, hf⟩ := h.end_final hl
  exact ⟨_, x, h.sound.path_lastWord, hx, hf⟩

/-- No word is longer than a lexicon says, -/
theorem length_le (h : l.Valid) (hw : l.Holds w) : w.length ≤ l.longest := by
  obtain ⟨o, hlongest, hlen⟩ := h.longest
  cases o with
  | none => exact absurd hw (hlongest w)
  | some n => exact hlen ▸ hlongest.2 w hw

/-- and one is as long, unless there is none. -/
theorem exists_length_eq (h : l.Valid) :
    (∃ w, l.Holds w ∧ w.length = l.longest) ∨ (∀ w, ¬l.Holds w) ∧ l.longest = 0 := by
  obtain ⟨o, hlongest, hlen⟩ := h.longest
  cases o with
  | none => exact .inr ⟨hlongest, hlen.symm⟩
  | some n => exact .inl (hlen ▸ hlongest.1)

end Valid

/-- No two states of a closed lexicon accept the same words. -/
theorem Valid.eq_of_closed (h : l.Valid) (hl : l.lifecycle = .closed) {s t : StateId}
    (hs : l.arena.Reaches l.root s) (ht : l.arena.Reaches l.root t)
    (hw : ∀ w, l.arena.Accepts s w ↔ l.arena.Accepts t w) : s = t := by
  have hoff : ∀ {u}, u ≠ l.root → u ∉ l.automaton.pathStates := by
    intro u hu hmem
    have hpath := h.path_eq (by rw [hl]; decide)
    rw [pathStates, hpath, List.map_nil, List.mem_singleton] at hmem
    exact hu hmem
  by_cases hsr : s = l.root
  · subst hsr
    exact (h.sound.eq_root_of_accepts_iff h.productive ht hw).symm
  by_cases htr : t = l.root
  · subst htr
    exact h.sound.eq_root_of_accepts_iff h.productive hs fun w => (hw w).symm
  · exact h.sound.eq_of_accepts_iff (h.sound.dag_root.intact s hs) (h.sound.dag_root.intact t ht)
      (hoff hsr) (hoff htr) hw

omit [Symbol σ] in
@[simp] theorem result_noteMerges (ms : List (Merge σ)) : (noteMerges ms).result = .ok () := rfl

/-! ## Counting -/

/-- A lexicon whose words can be counted has a numbering and remembers it. -/
theorem numbering_spec (hs : l.automaton.Sound) (hn : l.NumberingRight)
    (hlt : (l.arena.listing l.root).length < countLimit) :
    ∃ n, l.numbering.result = .ok (n, { l with numbering? := some n }) ∧
      Numbering.compute l.arena l.root = .ok (some n) ∧
      ∀ s, l.arena.Reaches l.root s → n.count s = (l.arena.listing s).length := by
  obtain ⟨n, hrun, hcount⟩ := Numbering.compute_eq_some hs.dag_root hlt
  refine ⟨n, ?_, hrun, hcount⟩
  unfold Lexicon.numbering
  cases hnum : l.numbering? with
  | none => simp only [Run.result_bind, hrun, Run.result_liftM_ok, ok_bind, Run.result_note,
      Run.result_pure]
  | some m =>
    have hm := hn m hnum
    rw [hrun] at hm
    cases hm
    simp only [Run.result_pure, ← hnum]

/-- A valid lexicon has a numbering. -/
theorem Valid.numbering_spec (h : l.Valid) :
    ∃ n, l.numbering.result = .ok (n, { l with numbering? := some n }) ∧
      Numbering.compute l.arena l.root = .ok (some n) ∧
      ∀ s, l.arena.Reaches l.root s → n.count s = (l.arena.listing s).length :=
  Lexicon.numbering_spec h.sound h.numbering (h.size_eq ▸ h.size_lt)

/-- A lexicon that remembers its numbering is as valid as before. -/
theorem Valid.remember (h : l.Valid) {n : Numbering}
    (hn : Numbering.compute l.arena l.root = .ok (some n)) :
    Valid { l with numbering? := some n } where
  sound := h.sound
  isOpen := h.isOpen
  path_eq := h.path_eq
  end_final := h.end_final
  no_words := h.no_words
  size_eq := h.size_eq
  size_lt := h.size_lt
  longest := h.longest
  numbering m hm := by
    cases hm
    exact hn

/-- Counting anew finds the number of words and the length of the longest one. -/
theorem recount_spec (hs : l.automaton.Sound) (hn : l.NumberingRight)
    (hlt : (l.arena.listing l.root).length < countLimit) :
    ∃ size longest n, l.recount.result = .ok { l with size, longest, numbering? := some n } ∧
      size = (l.arena.listing l.root).length ∧
      (∃ o, Longest l.Holds o ∧ o.getD 0 = longest) ∧
      Numbering.compute l.arena l.root = .ok (some n) := by
  obtain ⟨order, hpost, htop⟩ := hs.dag_root.exists_postorder
  obtain ⟨lengths, hlengths, hlong⟩ := htop.longestPaths_spec fun s hm =>
    hs.isLive_of_reaches hs.root_live (htop.mem_iff.1 hm)
  obtain ⟨n, hnum, hcomp, hcount⟩ := numbering_spec hs hn hlt
  refine ⟨n.count l.root, (lengths[l.root.slot]?.join).getD 0, n, ?_, hcount _ (.refl _),
    ⟨_, hlong l.root (htop.mem_iff.2 (.refl _)), rfl⟩, hcomp⟩
  unfold recount
  simp only [Run.result_bind, hpost, hlengths, hnum, Run.result_liftM_ok, ok_bind, Run.result_note,
    Run.result_pure]

/-! ## Adding a word -/

/-- A word is added without asking for the order just if the lexicon takes words and inserts it. -/
theorem addUncheckedWithin_eq_ok_iff :
    (l.addUncheckedWithin limit w).result = .ok (isNew, l') ↔
      l.lifecycle ≠ .closed ∧ (l.insertWithin limit w).result = .ok (isNew, l') := by
  unfold addUncheckedWithin
  by_cases hl : l.lifecycle = .closed
  · rw [if_pos hl]
    exact ⟨(nomatch ·), fun h => absurd hl h.1⟩
  · rw [if_neg hl, and_iff_right hl]

/-- A word is added just if it does not come before the last one and is added without asking. -/
theorem addWithin_eq_ok_iff :
    (l.addWithin limit w).result = .ok (isNew, l') ↔
      ¬w < l.automaton.lastWord ∧ (l.addUncheckedWithin limit w).result = .ok (isNew, l') := by
  unfold addWithin addUncheckedWithin
  by_cases hl : l.lifecycle = .closed
  · rw [if_pos hl, if_pos hl]
    exact ⟨(nomatch ·), fun h => nomatch h.2⟩
  · rw [if_neg hl, if_neg hl]
    by_cases hw : w < l.automaton.lastWord
    · rw [if_pos hw]
      exact ⟨(nomatch ·), fun h => absurd hw h.1⟩
    · rw [if_neg hw, and_iff_right hw]

theorem add_of_closed (hl : l.lifecycle = .closed) : (l.add w).result = .error .closed := by
  rw [add, addWithin, if_pos hl]
  rfl

theorem add_of_lt (hl : l.lifecycle ≠ .closed) (hw : w < l.automaton.lastWord) :
    (l.add w).result = .error (.outOfOrder l.automaton.lastWord w) := by
  simp only [add, addWithin, if_neg hl, if_pos hw, Run.result_bind, Run.result_note, ok_bind]
  rfl

theorem add_of_not_lt (hl : l.lifecycle ≠ .closed) (hw : ¬w < l.automaton.lastWord) :
    l.add w = l.insert w := by
  rw [add, addWithin, if_neg hl, if_neg hw, insert]

/-- What is answered to a word: the lexicon is closed, the word is out of order, or what inserting it
comes to. -/
theorem add_cases (l : Lexicon σ) (w : Word σ) :
    (l.add w).result = .error .closed ∨
      (l.add w).result = .error (.outOfOrder l.automaton.lastWord w) ∨
      l.lifecycle ≠ .closed ∧ ¬w < l.automaton.lastWord ∧ (l.add w).result = (l.insert w).result := by
  by_cases hl : l.lifecycle = .closed
  · exact .inl (add_of_closed hl)
  by_cases hw : w < l.automaton.lastWord
  · exact .inr (.inl (add_of_lt hl hw))
  · exact .inr (.inr ⟨hl, hw, by rw [add_of_not_lt hl hw]⟩)

/-- A word that is taken in order does not come before the last one, and is inserted. -/
theorem insert_of_add (h : (l.add w).result = .ok (isNew, l')) :
    l.lifecycle ≠ .closed ∧ ¬w < l.automaton.lastWord ∧ (l.insert w).result = .ok (isNew, l') := by
  obtain ⟨hw, h⟩ := addWithin_eq_ok_iff.1 h
  obtain ⟨hl, h⟩ := addUncheckedWithin_eq_ok_iff.1 h
  exact ⟨hl, hw, h⟩

/-- A fault of adding a word is one of inserting it. -/
theorem insert_of_add_fault {f : Fault} (h : (l.add w).result = .error (.fault f)) :
    l.lifecycle ≠ .closed ∧ (l.insert w).result = .error (.fault f) := by
  rcases l.add_cases w with hr | hr | ⟨hl, -, hr⟩
  · rw [hr] at h
    cases h
  · rw [hr] at h
    cases h
  · exact ⟨hl, hr ▸ h⟩

theorem addUnchecked_of_closed (hl : l.lifecycle = .closed) :
    (l.addUnchecked w).result = .error .closed := by
  rw [addUnchecked, addUncheckedWithin, if_pos hl]
  rfl

theorem addUnchecked_of_not_closed (hl : l.lifecycle ≠ .closed) : l.addUnchecked w = l.insert w := by
  rw [addUnchecked, addUncheckedWithin, if_neg hl, insert]

/-- The same for a word that is added without asking for the order. -/
theorem addUnchecked_cases (l : Lexicon σ) (w : Word σ) :
    (l.addUnchecked w).result = .error .closed ∨
      l.lifecycle ≠ .closed ∧ (l.addUnchecked w).result = (l.insert w).result := by
  by_cases hl : l.lifecycle = .closed
  · exact .inl (addUnchecked_of_closed hl)
  · exact .inr ⟨hl, by rw [addUnchecked_of_not_closed hl]⟩

theorem insert_of_addUnchecked (h : (l.addUnchecked w).result = .ok (isNew, l')) :
    l.lifecycle ≠ .closed ∧ (l.insert w).result = .ok (isNew, l') :=
  addUncheckedWithin_eq_ok_iff.1 h

theorem insert_of_addUnchecked_fault {f : Fault}
    (h : (l.addUnchecked w).result = .error (.fault f)) :
    l.lifecycle ≠ .closed ∧ (l.insert w).result = .error (.fault f) := by
  rcases l.addUnchecked_cases w with hr | ⟨hl, hr⟩
  · rw [hr] at h
    cases h
  · exact ⟨hl, hr ▸ h⟩

/-- The lexicon with an automaton to which a word was added. -/
def taken (l : Lexicon σ) (g : Automaton σ) (modified : Bool) : Lexicon σ :=
  let l := { l with automaton := g, lifecycle := .active }
  if modified then l.touch else l

/-- Brings the number of words and the length of the longest one up to date after an insertion. -/
def tally (l : Lexicon σ) (i : Insertion) (w : Word σ) : Run σ (Lexicon σ) :=
  if i.overwrote then l.recount
  else if i.added then do
    let size ← Numbering.plus l.size 1
    pure { l with size, longest := max l.longest w.length }
  else pure l

theorem insertWithin_eq (limit : Option Nat) (l : Lexicon σ) (w : Word σ) :
    l.insertWithin limit w = do
      let (g, i, ms) ← l.automaton.addWithin limit w
      noteMerges ms
      let l ← (l.taken g i.modified).tally i w
      return (i.added, l) := by
  unfold insertWithin tally
  refine bind_congr fun ⟨g, ⟨added, modified, overwrote⟩, ms⟩ => bind_congr fun _ => ?_
  cases overwrote with
  | true => cases modified <;> rfl
  | false =>
    cases added with
    | true => cases modified <;> exact (bind_assoc _ _ _).symm
    | false => cases modified <;> rfl

theorem automaton_taken (l : Lexicon σ) (g : Automaton σ) (b : Bool) :
    (l.taken g b).automaton = g := by
  cases b <;> rfl

theorem lifecycle_taken (l : Lexicon σ) (g : Automaton σ) (b : Bool) :
    (l.taken g b).lifecycle = .active := by
  cases b <;> rfl

theorem size_taken (l : Lexicon σ) (g : Automaton σ) (b : Bool) : (l.taken g b).size = l.size := by
  cases b <;> rfl

theorem longest_taken (l : Lexicon σ) (g : Automaton σ) (b : Bool) :
    (l.taken g b).longest = l.longest := by
  cases b <;> rfl

/-- What adding a word makes of a lexicon, and what it answers. -/
structure Inserted (l : Lexicon σ) (w : Word σ) (isNew : Bool) (l' : Lexicon σ) : Prop where
  valid : l'.Valid
  lifecycle_eq : l'.lifecycle = .active
  lastWord_eq : l'.automaton.lastWord = w
  holds_iff : ∀ v, l'.Holds v ↔ v = w ∨ l.Holds v ∧ ¬Displaces l.automaton.lastWord w v
  isNew_iff : isNew ↔ ¬(w <+: l.automaton.lastWord ∧ l.Holds w)
  eq_of_last : w = l.automaton.lastWord → l.Holds w → l' = l

/-- A lexicon forgets its numbering unless its graph stays as it is. -/
theorem Valid.numberingRight_taken (h : l.Valid) (hg : Added l.automaton w g i) :
    (l.taken g i.modified).NumberingRight := by
  intro n hn
  cases hm : i.modified with
  | true =>
    rw [hm] at hn
    cases hn
  | false =>
    rw [hm] at hn
    show Numbering.compute g.arena g.root = _
    rw [hg.eq_of_not_modified hm]
    exact h.numbering n hn

/-- A lexicon that has been brought up to date after an insertion is valid. -/
theorem Valid.of_added (hg : Added l.automaton w g i)
    (hauto : l'.automaton = g) (hlife : l'.lifecycle = .active)
    (hsize : l'.size = (g.arena.listing g.root).length) (hlt : l'.size < countLimit)
    (hlong : l'.LongestRight) (hnum : l'.NumberingRight) : l'.Valid where
  sound := hauto ▸ hg.growing.toSound
  isOpen _ := hauto ▸ hg.growing.isOpen
  path_eq hne := absurd hlife hne
  end_final _ := by
    rw [Lexicon.arena, Lexicon.root, hauto]
    exact hg.end_final
  no_words he := by
    rw [hlife] at he
    cases he
  size_eq := by rw [hsize, Lexicon.arena, Lexicon.root, hauto]
  size_lt := hlt
  longest := hlong
  numbering := hnum

/-- The words of a lexicon with an automaton to which a word was added. -/
theorem holds_of_added (hg : Added l.automaton w g i) (hauto : l'.automaton = g) :
    l'.Holds v ↔ v = w ∨ l.Holds v ∧ ¬Displaces l.automaton.lastWord w v := by
  rw [Holds, Lexicon.arena, Lexicon.root, hauto, hg.root_eq, hg.accepts_iff]
  rfl

/-- Where no edge was taken, no word was lost. -/
theorem holds_of_not_overwrote (hg : Added l.automaton w g i) (ho : i.overwrote = false) :
    g.arena.Accepts g.root v ↔ v = w ∨ l.Holds v := by
  rw [hg.root_eq, hg.accepts_iff]
  refine or_congr_right (and_iff_left_of_imp fun hv hd => ?_)
  rw [hg.overwrote_iff.2 ⟨v, hv, hd⟩] at ho
  cases ho

/-- Where no edge was taken, a word that counts as new is new. -/
theorem not_holds_of_added (hg : Added l.automaton w g i) (ho : i.overwrote = false)
    (ha : i.added) : ¬l.Holds w := by
  intro hw
  have hno : ¬Displaces l.automaton.lastWord w w := by
    intro hd
    rw [hg.overwrote_iff.2 ⟨w, hw, hd⟩] at ho
    cases ho
  refine hg.added_iff.1 ha ⟨commonPrefixLength_eq_length_iff.1 ?_, hw⟩
  exact Nat.le_antisymm (Word.commonPrefixLength_le_left ..)
    (Nat.le_of_not_lt fun hlt => hno (displaces_self hlt))

/-- An insertion that adds a word without taking an edge makes the longest word as long as the longer
one of the two. -/
theorem longest_of_added {o : Option Nat} (h : Longest l.Holds o)
    (hv : ∀ v, l'.Holds v ↔ v = w ∨ l.Holds v) :
    Longest l'.Holds (some (max (o.getD 0) w.length)) := by
  refine ⟨?_, fun v hv' => ?_⟩
  · cases o with
    | none => exact ⟨w, (hv w).2 (.inl rfl), by simp⟩
    | some n =>
      obtain ⟨⟨u, hu, rfl⟩, -⟩ := h
      rcases Nat.le_total u.length w.length with hle | hle
      · exact ⟨w, (hv w).2 (.inl rfl), (Nat.max_eq_right hle).symm⟩
      · exact ⟨u, (hv u).2 (.inr hu), (Nat.max_eq_left hle).symm⟩
  · rcases (hv v).1 hv' with rfl | hu
    · exact Nat.le_max_right ..
    · cases o with
      | none => exact absurd hu (h v)
      | some n => exact Nat.le_trans (h.2 v hu) (Nat.le_max_left ..)

/-- A valid lexicon with an automaton to which a word was added is what adding the word makes. -/
theorem inserted_of_valid (hg : Added l.automaton w g i) (hauto : l'.automaton = g)
    (hlife : l'.lifecycle = .active) (hvalid : l'.Valid)
    (hlast : w = l.automaton.lastWord → l.Holds w → l' = l) : Inserted l w i.added l' where
  valid := hvalid
  lifecycle_eq := hlife
  lastWord_eq := by
    rw [hauto]
    exact hg.lastWord_eq
  holds_iff _ := holds_of_added hg hauto
  isNew_iff := hg.added_iff
  eq_of_last := hlast

/-- A word that is the last one already takes no edge, is not new, and leaves the lexicon as it is. -/
theorem Valid.taken_of_last (h : l.Valid) (hl : l.lifecycle ≠ .closed)
    (hg : Added l.automaton w g i) (hw : w = l.automaton.lastWord) (hh : l.Holds w) :
    i.overwrote = false ∧ i.added = false ∧ l.taken g i.modified = l := by
  have hpre : w <+: l.automaton.lastWord := hw ▸ List.prefix_refl w
  have hm : i.modified = false := by
    rw [← Bool.not_eq_true, hg.modified_iff, not_not]
    exact ⟨hw, hh⟩
  refine ⟨?_, ?_, ?_⟩
  · rw [← Bool.not_eq_true, hg.overwrote_iff]
    rintro ⟨v, -, hd⟩
    exact not_displaces_of_isPrefix hpre hd
  · rw [← Bool.not_eq_true, hg.added_iff, not_not]
    exact ⟨hpre, hh⟩
  · rw [hm, hg.eq_of_not_modified hm, taken, ← h.lifecycle_eq hl hh]
    rfl

/-- A word that takes an edge makes no more words than there were. -/
theorem Valid.length_listing_le_of_overwrote (h : l.Valid) (hg : Added l.automaton w g i)
    (ho : i.overwrote) : (g.arena.listing g.root).length ≤ (l.arena.listing l.root).length := by
  obtain ⟨v, hv, hd⟩ := hg.overwrote_iff.1 ho
  refine length_listing_le_of_lost (w := w) h.sound.dag_root hg.growing.toSound.dag_root hv
    fun u hu => ?_
  rw [hg.root_eq, hg.accepts_iff] at hu
  refine hu.imp_right fun ⟨hu, hnot⟩ => ⟨hu, ?_⟩
  rintro rfl
  exact hnot hd

/-- After an insertion that takes an edge, counting anew brings the lexicon up to date. -/
theorem Valid.recount_taken (h : l.Valid) (hl : l.lifecycle ≠ .closed)
    (hg : Added l.automaton w g i) (ho : i.overwrote) :
    ∃ l', (l.taken g i.modified).recount.result = .ok l' ∧ Inserted l w i.added l' := by
  have hauto := automaton_taken l g i.modified
  have hlife := lifecycle_taken l g i.modified
  have hlt : ((l.taken g i.modified).arena.listing (l.taken g i.modified).root).length <
      countLimit := by
    rw [Lexicon.arena, Lexicon.root, hauto]
    have hsize := h.size_lt
    rw [h.size_eq] at hsize
    exact Nat.lt_of_le_of_lt (h.length_listing_le_of_overwrote hg ho) hsize
  obtain ⟨size, longest, n, hrun, hsize, hlong, hcomp⟩ :=
    recount_spec (by rw [hauto]; exact hg.growing.toSound) (h.numberingRight_taken hg) hlt
  refine ⟨_, hrun, inserted_of_valid hg hauto hlife ?_ fun hw hh => ?_⟩
  · refine Valid.of_added hg hauto hlife ?_ (hsize ▸ hlt) hlong fun m hm => ?_
    · rw [← hauto]
      exact hsize
    · cases hm
      exact hcomp
  · rw [(h.taken_of_last hl hg hw hh).1] at ho
    cases ho

/-- After an insertion that adds a word without taking an edge, there is one word more. -/
theorem Valid.taken_of_new (h : l.Valid) (hg : Added l.automaton w g i)
    (ho : i.overwrote = false) (ha : i.added) (hfit : l.size + 1 < countLimit) :
    Inserted l w i.added { l.taken g i.modified with
      size := l.size + 1, longest := max l.longest w.length } := by
  have hauto := automaton_taken l g i.modified
  have hlife := lifecycle_taken l g i.modified
  have hnew := not_holds_of_added hg ho ha
  have hkeep : ∀ v, g.arena.Accepts g.root v ↔ v = w ∨ l.Holds v :=
    fun v => holds_of_not_overwrote hg ho
  refine inserted_of_valid hg hauto hlife ?_ fun _ hh => absurd hh hnew
  refine Valid.of_added hg hauto hlife ?_ hfit ?_ (h.numberingRight_taken hg)
  · show l.size + 1 = _
    rw [length_listing_of_new h.sound.dag_root hg.growing.toSound.dag_root hnew hkeep, h.size_eq]
  · obtain ⟨o, hlong, hlen⟩ := h.longest
    refine ⟨_, longest_of_added (w := w) hlong fun v => ?_, ?_⟩
    · rw [Holds, Lexicon.arena, Lexicon.root, hauto]
      exact hkeep v
    · rw [hlen]
      rfl

/-- After an insertion that neither takes an edge nor adds a word, the words are the same. -/
theorem Valid.taken_of_old (h : l.Valid) (hl : l.lifecycle ≠ .closed)
    (hg : Added l.automaton w g i) (ho : i.overwrote = false) (ha : i.added = false) :
    Inserted l w i.added (l.taken g i.modified) := by
  have hauto := automaton_taken l g i.modified
  have hlife := lifecycle_taken l g i.modified
  obtain ⟨-, hw⟩ : w <+: l.automaton.lastWord ∧ l.Holds w := by
    rw [← not_not (a := _ ∧ _)]
    exact fun hn => by simp [hg.added_iff.2 hn] at ha
  have hsame : ∀ v, g.arena.Accepts g.root v ↔ l.Holds v := by
    intro v
    rw [holds_of_not_overwrote hg ho, or_iff_right_of_imp]
    rintro rfl
    exact hw
  refine inserted_of_valid hg hauto hlife ?_ fun hw hh => (h.taken_of_last hl hg hw hh).2.2
  refine Valid.of_added hg hauto hlife ?_ ?_ ?_ (h.numberingRight_taken hg)
  · rw [size_taken, h.size_eq,
      listing_congr hg.growing.toSound.dag_root h.sound.dag_root hsame]
  · rw [size_taken]
    exact h.size_lt
  · obtain ⟨o, hlong, hlen⟩ := h.longest
    refine ⟨o, (Longest.congr fun v => ?_).1 hlong, hlen.trans (longest_taken ..).symm⟩
    show _ ↔ (l.taken g i.modified).automaton.arena.Accepts
      (l.taken g i.modified).automaton.root v
    rw [hauto, hsame]

/-- Bringing a lexicon up to date after an insertion works unless there is one word too many. -/
theorem Valid.tally_spec (h : l.Valid) (hl : l.lifecycle ≠ .closed)
    (hg : Added l.automaton w g i) :
    (∃ l', ((l.taken g i.modified).tally i w).result = .ok l' ∧ Inserted l w i.added l') ∨
      ((l.taken g i.modified).tally i w).result = .error (.fault .countOverflow) ∧
        ¬l.Holds w ∧ (∀ v, l.Holds v → ¬Displaces l.automaton.lastWord w v) ∧
        l.size + 1 = countLimit := by
  unfold tally
  cases ho : i.overwrote with
  | true => exact .inl (h.recount_taken hl hg ho)
  | false =>
    simp only [Bool.false_eq_true, if_false]
    cases ha : i.added with
    | true =>
      simp only [if_true, Run.result_bind, size_taken, longest_taken]
      by_cases hfit : l.size + 1 < countLimit
      · left
        rw [Numbering.plus_eq_ok_iff.2 ⟨rfl, hfit⟩, Run.result_liftM_ok, ok_bind, Run.result_pure]
        exact ⟨_, rfl, ha ▸ h.taken_of_new hg ho ha hfit⟩
      · right
        refine ⟨?_, not_holds_of_added hg ho ha, fun v hv hd => ?_, ?_⟩
        · rw [Numbering.plus, if_neg hfit, Run.result_liftM_error, error_bind]
        · rw [hg.overwrote_iff.2 ⟨v, hv, hd⟩] at ho
          cases ho
        · have hlt := h.size_lt
          omega
    | false => exact .inl ⟨_, rfl, ha ▸ h.taken_of_old hl hg ho ha⟩

/-- **What adding a word does**, in order or not. -/
theorem Valid.insertWithin_ok (h : l.Valid) (hl : l.lifecycle ≠ .closed)
    (hr : (l.insertWithin limit w).result = .ok (isNew, l')) : Inserted l w isNew l' := by
  rw [insertWithin_eq] at hr
  cases hadd : l.automaton.addWithin limit w with
  | error f => simp only [hadd, Run.result_bind, Run.result_liftM_error, error_bind, reduceCtorEq] at hr
  | ok made =>
    obtain ⟨g, i, ms⟩ := made
    simp only [hadd, Run.result_bind, Run.result_liftM_ok, ok_bind, result_noteMerges] at hr
    rcases h.tally_spec hl ((h.growing hl).addWithin_ok hadd) with ⟨l₁, hrun, hins⟩ | ⟨hrun, -⟩
    · rw [hrun] at hr
      cases hr
      exact hins
    · rw [hrun] at hr
      cases hr

/-- **Only a lack of slots and a word too many keep a word from being added.** -/
theorem Valid.insertWithin_error (h : l.Valid) (hl : l.lifecycle ≠ .closed)
    (hr : (l.insertWithin limit w).result = .error e) :
    (e = .fault .arenaFull ∧ ¬w <+: l.automaton.lastWord ∧
        ∃ n ∈ limit, n < l.stateCount + w.length) ∨
      e = .fault .countOverflow ∧ ¬l.Holds w ∧
        (∀ v, l.Holds v → ¬Displaces l.automaton.lastWord w v) ∧ l.size + 1 = countLimit := by
  rw [insertWithin_eq] at hr
  cases hadd : l.automaton.addWithin limit w with
  | error f =>
    simp only [hadd, Run.result_bind, Run.result_liftM_error, error_bind] at hr
    cases hr
    obtain ⟨rfl, hover⟩ := (h.growing hl).addWithin_error hadd
    exact .inl ⟨rfl, hover⟩
  | ok made =>
    obtain ⟨g, i, ms⟩ := made
    simp only [hadd, Run.result_bind, Run.result_liftM_ok, ok_bind, result_noteMerges] at hr
    rcases h.tally_spec hl ((h.growing hl).addWithin_ok hadd) with ⟨l₁, hrun, -⟩ | ⟨hrun, hover⟩
    · rw [hrun] at hr
      cases hr
    · rw [hrun] at hr
      cases hr
      exact .inr ⟨rfl, hover⟩

/-- Adding a word in the arena that there is. -/
theorem Valid.insert_ok (h : l.Valid) (hl : l.lifecycle ≠ .closed)
    (hr : (l.insert w).result = .ok (isNew, l')) : Inserted l w isNew l' :=
  h.insertWithin_ok hl hr

theorem Valid.insert_error (h : l.Valid) (hl : l.lifecycle ≠ .closed)
    (hr : (l.insert w).result = .error e) :
    e = .fault .arenaFull ∧ ¬w <+: l.automaton.lastWord ∧ slotLimit < l.stateCount + w.length ∨
      e = .fault .countOverflow ∧ ¬l.Holds w ∧
        (∀ v, l.Holds v → ¬Displaces l.automaton.lastWord w v) ∧ l.size + 1 = countLimit := by
  refine (h.insertWithin_error hl hr).imp_left ?_
  rintro ⟨he, hpre, n, hn, hlt⟩
  cases hn
  exact ⟨he, hpre, hlt⟩

/-! ## The other operations -/

theorem not_holds_initial {l : Lexicon σ} (h : l.automaton = .initial) : ¬l.Holds w := by
  rw [Holds, Lexicon.arena, Lexicon.root, h]
  exact not_accepts_initial

/-- A lexicon with the initial automaton and no words on record is valid. -/
theorem Valid.of_initial (hauto : l.automaton = .initial) (hsize : l.size = 0)
    (hlong : l.longest = 0) (hlife : l.lifecycle = .empty) (hnum : l.numbering? = none) :
    l.Valid where
  sound := hauto ▸ initial_growing.toSound
  isOpen _ := hauto ▸ initial_growing.isOpen
  path_eq _ := by
    rw [hauto]
    rfl
  end_final he := by
    rw [hlife] at he
    cases he
  no_words _ w := not_holds_initial hauto
  size_eq := by
    rw [hsize, Lexicon.arena, Lexicon.root, hauto]
    rfl
  size_lt := by
    rw [hsize]
    decide
  longest := ⟨none, fun w => not_holds_initial hauto, hlong.symm⟩
  numbering n hn := by
    rw [hnum] at hn
    cases hn

theorem Valid.new (identity : Nat) : (new identity : Lexicon σ).Valid :=
  .of_initial rfl rfl rfl rfl rfl

/-- Closing makes a lexicon that is closed and has the same words. -/
structure Shut (l l' : Lexicon σ) : Prop where
  valid : l'.Valid
  lifecycle_eq : l'.lifecycle = .closed
  holds_iff : ∀ v, l'.Holds v ↔ l.Holds v
  live_le : l'.stateCount ≤ l.stateCount

/-- **Closing runs through** and keeps every word. -/
theorem Valid.close_spec (h : l.Valid) : ∃ l', l.close.result = .ok l' ∧ Shut l l' := by
  by_cases hl : l.lifecycle = .closed
  · rw [close_of_closed hl]
    exact ⟨l, rfl, h, hl, fun _ => Iff.rfl, Nat.le_refl _⟩
  · obtain ⟨g, ms, hrun, hg⟩ := (h.growing hl).close_spec
    have hholds : ∀ v, g.arena.Accepts g.root v ↔ l.Holds v := by
      intro v
      rw [hg.root_eq]
      exact hg.accepts_iff v
    refine ⟨touch { l with automaton := g, lifecycle := .closed }, ?_, ?_, rfl, hholds, hg.live_le⟩
    · unfold close
      simp only [if_neg hl, Run.result_bind, hrun, Run.result_liftM_ok, ok_bind, result_noteMerges,
        Run.result_note, Run.result_pure]
    · refine ⟨hg.sound, fun hne => absurd rfl hne, fun _ => hg.path_eq, (nomatch ·),
        (nomatch ·), ?_, h.size_lt, ?_, fun n hn => nomatch hn⟩
      · show l.size = (g.arena.listing g.root).length
        rw [h.size_eq, listing_congr hg.sound.dag_root h.sound.dag_root hholds]
      · obtain ⟨o, hlong, hlen⟩ := h.longest
        exact ⟨o, (Longest.congr fun v => (hholds v).symm).1 hlong, hlen⟩

/-- Clearing makes a lexicon without words. -/
theorem clear_spec (l : Lexicon σ) : ∃ l', l.clear.result = .ok l' ∧ l'.Valid ∧
    l'.automaton = .initial ∧ l'.lifecycle = .empty :=
  ⟨_, rfl, .of_initial rfl rfl rfl rfl rfl, rfl, rfl⟩

/-- Every operation keeps a lexicon valid. -/
theorem Valid.step (h : l.Valid) (hs : Step l l') : l'.Valid := by
  cases hs with
  | add hr =>
    obtain ⟨hl, -, hins⟩ := insert_of_add hr
    exact (h.insert_ok hl hins).valid
  | addUnchecked hr =>
    obtain ⟨hl, hins⟩ := insert_of_addUnchecked hr
    exact (h.insert_ok hl hins).valid
  | close hr =>
    obtain ⟨l₁, hrun, hshut⟩ := h.close_spec
    rw [hrun] at hr
    cases hr
    exact hshut.valid
  | clear hr =>
    obtain ⟨l₁, hrun, hvalid, -⟩ := clear_spec l
    rw [hrun] at hr
    cases hr
    exact hvalid
  | numbering hr =>
    obtain ⟨n, hrun, hcomp, -⟩ := h.numbering_spec
    rw [hrun] at hr
    cases hr
    exact h.remember hcomp
  | clone identity =>
    exact ⟨h.sound, h.isOpen, h.path_eq, h.end_final, h.no_words, h.size_eq, h.size_lt, h.longest,
      h.numbering⟩

end WordGraph.Lexicon
