import Mathlib.Data.Finset.Card
import Mathlib.Data.List.Induction
import WordGraph.EdgeTable.Compact

/-!
# Compact tables are tables

The edges of a table can be packed into a compact one, and each operation on the packed table answers
what it answers on the table and leaves what packing the result would give. So whatever calls have made
a compact table, it is the packing of the table that the same calls make, and that one is the finite map
from each symbol to the state that was set last for it.

* `place_cons`, `mergeSort_eq` — the two ways to put an edge in order
* `set_pack` — setting an edge of a packed table
* `find?_pack`, `get?_pack`, `toList_iter_pack` — reading one
* `Tabulates` — what calls of `set` make
* `tabulates` — they make that of any compact table
-/

namespace WordGraph.EdgeTable

variable {σ : Type} [Symbol σ] {c d : σ} {s : StateId} {e : σ × StateId}
  {es es' calls : List (σ × StateId)}

/-! ## Edges in order -/

/-- Edges in increasing order of their symbols. -/
abbrev Increasing (es : List (σ × StateId)) : Prop := es.Pairwise fun e e' => e.1 < e'.1

/-- In order, an edge is put behind the edges below its symbol, in place of the edge it had. -/
theorem place_cons (h : Increasing (e :: es)) : place c s (e :: es) =
    if e.1 < c then e :: place c s es
    else if e.1 = c then (c, s) :: es
    else (c, s) :: e :: es := by
  obtain ⟨hlt, -⟩ := List.pairwise_cons.1 h
  unfold place
  split
  · next hec => simp [hec, Symbol.not_lt_of_lt hec]
  · next hec =>
    -- nothing is below the symbol, so everything behind the first edge is above it
    have hce : e.1 = c ∨ c < e.1 := by
      rcases Symbol.lt_trichotomy e.1 c with h' | h' | h'
      · exact absurd h' hec
      · exact .inl h'
      · exact .inr h'
    have habove : ∀ e' ∈ es, c < e'.1 := by
      intro e' he'
      rcases hce with rfl | hce
      · exact hlt e' he'
      · exact Symbol.lt_trans hce (hlt e' he')
    have hbelow : es.filter (fun e' => e'.1 < c) = [] :=
      List.filter_eq_nil_iff.2 fun e' he' => by simpa using Symbol.not_lt_of_lt (habove e' he')
    have hall : es.filter (fun e' => c < e'.1) = es :=
      List.filter_eq_self.2 fun e' he' => by simpa using habove e' he'
    rcases hce with rfl | hce
    · simp [hbelow, hall, Symbol.lt_irrefl]
    · simp [hbelow, hall, hec, hce, (Symbol.ne_of_lt hce).symm]

/-- Sorting a list by symbols puts it in order, if no two symbols are the same. -/
theorem mergeSort_eq (h : Increasing es) (hp : es'.Perm es) :
    (es'.mergeSort fun e e' => ¬e'.1 < e.1) = es := by
  have hsorted : (es'.mergeSort fun e e' => ¬e'.1 < e.1).Pairwise
      fun e e' => (decide ¬e'.1 < e.1) = true := by
    refine List.pairwise_mergeSort (fun a b c hab hbc => ?_) (fun a b => ?_) es'
    · simp only [decide_eq_true_eq] at hab hbc ⊢
      intro hca
      rcases Symbol.lt_trichotomy a.1 b.1 with hlt | heq | hlt
      · exact hbc (Symbol.lt_trans hca hlt)
      · exact hbc (heq ▸ hca)
      · exact hab hlt
    · rw [Bool.or_eq_true, decide_eq_true_eq, decide_eq_true_eq]
      by_cases hba : b.1 < a.1
      · exact .inr (Symbol.not_lt_of_lt hba)
      · exact .inl hba
  have hperm := (List.mergeSort_perm es' fun e e' => ¬e'.1 < e.1).trans hp
  refine hperm.eq_of_pairwise ?_ hsorted (h.imp fun hlt => by simpa using Symbol.not_lt_of_lt hlt)
  rintro ⟨c, s⟩ ⟨c', s'⟩ ha hb hab hba
  simp only [decide_eq_true_eq] at hab hba
  obtain rfl : c = c' := by
    rcases Symbol.lt_trichotomy c c' with hlt | heq | hlt
    · exact absurd hlt hba
    · exact heq
    · exact absurd hlt hab
  rw [eq_of_mem (t := ⟨es, h⟩) (hperm.mem_iff.1 ha) hb]

/-- Putting a new edge in order moves the others along. -/
theorem perm_place (h : Increasing es) (hc : ∀ e ∈ es, e.1 ≠ c) :
    ((c, s) :: es).Perm (place c s es) := by
  induction es with
  | nil => exact .refl _
  | cons e es ih =>
    obtain ⟨hec, hrest⟩ := List.forall_mem_cons.1 hc
    rw [place_cons h]
    split
    · exact (List.Perm.swap e (c, s) es).trans ((ih h.of_cons hrest).cons e)
    · exact .refl _

/-- The place of an edge is the position of the first edge that is not below its symbol. -/
theorem place_eq (h : Increasing es) :
    let i := es.findIdx fun e => ¬e.1 < c
    let old := es[i]?.filter fun e => e.1 = c
    old = es.find? (fun e => e.1 = c) ∧
      place c s es = match old with
        | some e => es.set i (e.1, s)
        | none => es.insertIdx i (c, s) := by
  induction es with
  | nil => exact ⟨rfl, rfl⟩
  | cons e es ih =>
    rw [place_cons h, List.findIdx_cons]
    rcases Symbol.lt_trichotomy e.1 c with hec | hec | hec
    · obtain ⟨hold, hplace⟩ := ih h.of_cons
      have hne := Symbol.ne_of_lt hec
      simp only [hec, not_true, decide_false, cond_false, List.getElem?_cons_succ, if_true,
        List.find?_cons, hne, List.set_cons_succ, List.insertIdx_succ_cons]
      refine ⟨hold, ?_⟩
      rw [hplace]
      split <;> rfl
    · subst hec
      simp [Symbol.lt_irrefl, Option.filter]
    · have hlt := Symbol.not_lt_of_lt hec
      have hne := (Symbol.ne_of_lt hec).symm
      have hnone : es.find? (fun e => e.1 = c) = none := by
        refine List.find?_eq_none.2 fun e' he' => ?_
        have := Symbol.lt_trans hec (List.rel_of_pairwise_cons h he')
        simpa using (Symbol.ne_of_lt this).symm
      simp [hlt, hne, hnone, Option.filter]

namespace Compact

/-! ## Packing -/

section

omit [Symbol σ]

/-- The compact table of some edges. -/
def pack : List (σ × StateId) → Compact σ
  | [] => empty
  | [e] => one e.1 e.2
  | [e₁, e₂] => two e₁.1 e₁.2 e₂.1 e₂.2
  | edges => many edges

theorem pack_of_three_le (h : 3 ≤ es.length) : pack es = many es := by
  match es with
  | _ :: _ :: _ :: _ => rfl

@[simp] theorem size_pack (es : List (σ × StateId)) : (pack es).size = es.length := by
  match es with
  | [] | [_] | [_, _] | _ :: _ :: _ :: _ => rfl

@[simp] theorem isEmpty_pack (es : List (σ × StateId)) : (pack es).isEmpty = es.isEmpty := by
  match es with
  | [] | [_] | [_, _] | _ :: _ :: _ :: _ => rfl

@[simp] theorem get?_pack (es : List (σ × StateId)) (i : Nat) : (pack es).get? i = es[i]? := by
  match es, i with
  | [], _ | [_], 0 | [_], _ + 1 | [_, _], 0 | [_, _], 1 | [_, _], _ + 2 => rfl
  | _ :: _ :: _ :: _, _ => rfl

/-- What a span has left are the edges from its front on. -/
theorem toList_span (es : List (σ × StateId)) (i : Nat) :
    Span.toList ⟨pack es, i, es.length⟩ = es.drop i := by
  induction hn : es.length - i generalizing i with
  | zero =>
    have hle : es.length ≤ i := by omega
    rw [Span.toList_nil (by rw [Span.next, if_pos hle]), List.drop_eq_nil_of_le hle]
  | succ n ih =>
    have hlt : i < es.length := by omega
    have hnext : Span.next ⟨pack es, i, es.length⟩ = (some es[i], ⟨pack es, i + 1, es.length⟩) := by
      rw [Span.next, if_neg (Nat.not_le.2 hlt), get?_pack, List.getElem?_eq_getElem hlt]
    rw [Span.toList_cons hnext, ih (i + 1) (by omega), List.drop_eq_getElem_cons hlt]

@[simp] theorem toList_iter_pack (es : List (σ × StateId)) : (pack es).iter.toList = es := by
  rw [iter, size_pack, toList_span, List.drop_zero]

end

@[simp] theorem shape_pack (t : EdgeTable σ) : (pack t.edges).shape = t.shape := by
  unfold EdgeTable.shape
  match t.edges with
  | [] | [_] | [_, _] | _ :: _ :: _ :: _ => rfl

/-- Looking at two edges at a time finds what looking at each finds. -/
theorem scan_eq (c : σ) (es : List (σ × StateId)) :
    scan c es = (es.find? fun e => e.1 = c).map Prod.snd := by
  fun_induction scan c es <;> simp_all

@[simp] theorem find?_pack (es : List (σ × StateId)) (c : σ) :
    (pack es).find? c = (es.find? fun e => e.1 = c).map Prod.snd := by
  match es with
  | [] => rfl
  | [e] =>
    by_cases h : e.1 = c <;> simp [pack, find?, h]
  | [e₁, e₂] =>
    by_cases h₁ : e₁.1 = c
    · simp [pack, find?, h₁]
    · by_cases h₂ : e₂.1 = c
      · simp [pack, find?, h₁, h₂, Ne.symm h₁]
      · simp [pack, find?, h₁, h₂, Ne.symm h₁, Ne.symm h₂]
  | e₁ :: e₂ :: e₃ :: es => exact scan_eq c _

/-- **Setting an edge of a packed table** answers where it led, and packs the edges with the edge in its
place. -/
theorem set_pack (h : Increasing es) :
    (pack es).set c s = ((es.find? fun e => e.1 = c).map Prod.snd, pack (place c s es)) := by
  match es with
  | [] => rfl
  | [(c₁, s₁)] =>
    rw [place_cons h]
    rcases Symbol.lt_trichotomy c₁ c with hlt | rfl | hlt
    · simp [pack, set, place, hlt, Symbol.ne_of_lt hlt, Symbol.not_lt_of_lt hlt]
    · simp [pack, set, Symbol.lt_irrefl]
    · simp [pack, set, hlt, (Symbol.ne_of_lt hlt).symm, Symbol.not_lt_of_lt hlt]
  | [(c₁, s₁), (c₂, s₂)] =>
    have h₁₂ : c₁ < c₂ := by simpa using h
    by_cases h₁ : c₁ = c
    · subst h₁
      rw [place_cons h]
      simp [pack, set, Symbol.lt_irrefl]
    by_cases h₂ : c₂ = c
    · subst h₂
      rw [place_cons h, place_cons h.of_cons]
      simp [pack, set, Symbol.lt_irrefl, h₁, h₁₂]
    -- a third edge: sorting the three puts it in order
    have hperm := perm_place (s := s) h (c := c) (by simp [h₁, h₂])
    have hsort : ([(c₁, s₁), (c₂, s₂), (c, s)].mergeSort fun e e' => ¬e'.1 < e.1) =
        place c s [(c₁, s₁), (c₂, s₂)] :=
      mergeSort_eq (sorted_place c s h) ((List.perm_append_singleton (c, s) _).trans hperm)
    rw [pack_of_three_le (Nat.le_of_eq hperm.length_eq)]
    simp only [pack, set, h₁, h₂, if_false, hsort]
    simp [h₁, h₂]
  | e₁ :: e₂ :: e₃ :: es =>
    obtain ⟨hold, hplace⟩ := place_eq (c := c) (s := s) h
    have hpack : pack (e₁ :: e₂ :: e₃ :: es) = many (e₁ :: e₂ :: e₃ :: es) := rfl
    rw [hpack, set, ← hold]
    split
    · next heq =>
      rw [heq] at hplace ⊢
      rw [hplace, pack_of_three_le (by simp)]
      rfl
    · next heq =>
      rw [heq] at hplace ⊢
      rw [hplace, pack_of_three_le]
      · rfl
      · have := List.length_le_length_insertIdx (l := e₁ :: e₂ :: e₃ :: es) (x := (c, s))
          (i := (e₁ :: e₂ :: e₃ :: es).findIdx fun e => ¬e.1 < c)
        simp only [List.length_cons] at this ⊢
        omega

end Compact

/-! ## Calls -/

/-- The state that was set last for a symbol. -/
def lastSet (calls : List (σ × StateId)) (c : σ) : Option StateId :=
  (calls.reverse.find? fun e => e.1 = c).map Prod.snd

/-- The table that calls of `set` make of an empty one. -/
def ofCalls (calls : List (σ × StateId)) : EdgeTable σ := calls.foldl (fun t e => t.set e.1 e.2) ∅

theorem ofCalls_concat (calls : List (σ × StateId)) (c : σ) (s : StateId) :
    ofCalls (calls ++ [(c, s)]) = (ofCalls calls).set c s := by
  simp [ofCalls]

/-- A table holds for each symbol the state that was set last for it. -/
theorem find?_ofCalls (calls : List (σ × StateId)) (c : σ) :
    (ofCalls calls).find? c = lastSet calls c := by
  induction calls using List.reverseRecOn with
  | nil => rfl
  | append_singleton calls e ih =>
    obtain ⟨d, s⟩ := e
    rw [ofCalls_concat]
    by_cases hd : c = d
    · subst hd
      simp [lastSet]
    · rw [find?_set_of_ne hd, ih]
      simp [lastSet, Ne.symm hd]

/-- The symbols of a table are those for which `set` was called. -/
theorem size_ofCalls (calls : List (σ × StateId)) :
    (ofCalls calls).size = (calls.map Prod.fst).toFinset.card := by
  have hnodup : ((ofCalls calls).edges.map Prod.fst).Nodup :=
    List.pairwise_map.2 ((ofCalls calls).sorted.imp Symbol.ne_of_lt)
  have hset : ((ofCalls calls).edges.map Prod.fst).toFinset = (calls.map Prod.fst).toFinset := by
    ext c
    have hfind := find?_ofCalls calls c
    simp only [List.mem_toFinset, List.mem_map]
    constructor
    · rintro ⟨⟨d, s⟩, hmem, rfl⟩
      rw [find?_eq_some_iff.2 hmem, lastSet, eq_comm, Option.map_eq_some_iff] at hfind
      obtain ⟨e, he, -⟩ := hfind
      exact ⟨e, List.mem_reverse.1 (List.mem_of_find?_eq_some he), by simpa using List.find?_some he⟩
    · rintro ⟨e, hmem, rfl⟩
      obtain ⟨e', he'⟩ : ∃ e', (calls.reverse.find? fun e' => e'.1 = e.1) = some e' := by
        rw [← Option.isSome_iff_exists, List.find?_isSome]
        exact ⟨e, List.mem_reverse.2 hmem, by simp⟩
      rw [lastSet, he', Option.map_some] at hfind
      exact ⟨_, find?_eq_some_iff.1 hfind, rfl⟩
  rw [← hset, List.toFinset_card_of_nodup hnodup, List.length_map]
  rfl

/-- The shape of so many edges. -/
def Shape.ofSize : Nat → Shape
  | 0 => .none
  | 1 => .one
  | 2 => .two
  | _ => .many

theorem shape_eq_ofSize (t : EdgeTable σ) : t.shape = .ofSize t.size := by
  unfold shape size
  match t.edges with
  | [] | [_] | [_, _] | _ :: _ :: _ :: _ => rfl

namespace Compact

/-- **The same calls make a compact table and the table whose packing it is.** -/
theorem ofCalls_eq (calls : List (σ × StateId)) :
    ofCalls calls = pack (EdgeTable.ofCalls calls).edges := by
  induction calls using List.reverseRecOn with
  | nil => rfl
  | append_singleton calls e ih =>
    obtain ⟨c, s⟩ := e
    have hstep : ofCalls (calls ++ [(c, s)]) = ((ofCalls calls).set c s).2 := by simp [ofCalls]
    rw [hstep, ih, set_pack (EdgeTable.ofCalls calls).sorted, ofCalls_concat]
    rfl

/-- What calls of `set` on an empty table have made. -/
structure Tabulates (calls : List (σ × StateId)) (p : Compact σ) : Prop where
  /-- The shape tells how many symbols there are, up to two. -/
  shape_eq : p.shape = .ofSize (calls.map Prod.fst).toFinset.card
  /-- The edges are handed out in increasing order of their symbols, -/
  increasing : Increasing p.iter.toList
  /-- each with the state that was set last. -/
  mem_iff : ∀ c s, (c, s) ∈ p.iter.toList ↔ lastSet calls c = some s
  find?_eq : ∀ c, p.find? c = lastSet calls c
  get?_eq : ∀ i, p.get? i = p.iter.toList[i]?
  size_eq : p.size = p.iter.toList.length
  /-- One more call answers the state that the edge led to before, -/
  set_fst : ∀ c s, (p.set c s).1 = lastSet calls c
  /-- points this edge, -/
  set_self : ∀ c s, (c, s) ∈ (p.set c s).2.iter.toList
  /-- and leaves the others. -/
  set_other : ∀ c s, ∀ e : σ × StateId, e.1 ≠ c →
    (e ∈ (p.set c s).2.iter.toList ↔ e ∈ p.iter.toList)

/-- A compact table answers what a table answers. -/
structure Answers (p : Compact σ) (t : EdgeTable σ) : Prop where
  toList_iter : p.iter.toList = t.edges
  shape_eq : p.shape = t.shape
  size_eq : p.size = t.size
  isEmpty_eq : p.isEmpty = t.isEmpty
  find?_eq : ∀ c, p.find? c = t.find? c
  get?_eq : ∀ i, p.get? i = t.get? i
  set_fst : ∀ c s, (p.set c s).1 = t.find? c
  set_snd : ∀ c s, (p.set c s).2.iter.toList = (t.set c s).edges

theorem answers_pack (t : EdgeTable σ) : Answers (pack t.edges) t where
  toList_iter := toList_iter_pack t.edges
  shape_eq := shape_pack t
  size_eq := size_pack t.edges
  isEmpty_eq := isEmpty_pack t.edges
  find?_eq := find?_pack t.edges
  get?_eq := get?_pack t.edges
  set_fst c s := by
    rw [set_pack t.sorted]
    rfl
  set_snd c s := by
    rw [set_pack t.sorted, toList_iter_pack]
    rfl

/-- **A compact table is a finite map in order**, whatever calls have made it: it holds for each symbol
the state that was set last, and it answers what the table answers that the same calls make. -/
theorem tabulates (calls : List (σ × StateId)) :
    Tabulates calls (ofCalls calls) ∧ Answers (ofCalls calls) (EdgeTable.ofCalls calls) := by
  rw [ofCalls_eq]
  have hanswers := answers_pack (EdgeTable.ofCalls calls)
  have hfind := find?_ofCalls calls
  refine ⟨?_, hanswers⟩
  constructor
  case shape_eq => rw [hanswers.shape_eq, shape_eq_ofSize, size_ofCalls]
  case increasing =>
    rw [hanswers.toList_iter]
    exact (EdgeTable.ofCalls calls).sorted
  case mem_iff =>
    intro c s
    rw [hanswers.toList_iter, ← find?_eq_some_iff, hfind]
  case find?_eq => exact fun c => (hanswers.find?_eq c).trans (hfind c)
  case get?_eq =>
    intro i
    rw [hanswers.get?_eq, hanswers.toList_iter]
    rfl
  case size_eq =>
    rw [hanswers.size_eq, hanswers.toList_iter]
    rfl
  case set_fst => exact fun c s => (hanswers.set_fst c s).trans (hfind c)
  case set_self =>
    intro c s
    rw [hanswers.set_snd, mem_edges_set]
    exact .inl ⟨rfl, rfl⟩
  case set_other =>
    intro c s e he
    rw [hanswers.set_snd, hanswers.toList_iter, mem_edges_set, or_iff_right fun h => he h.1,
      and_iff_right he]

end Compact

end WordGraph.EdgeTable
