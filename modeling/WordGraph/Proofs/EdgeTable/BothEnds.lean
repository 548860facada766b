import WordGraph.EdgeTable.BothEnds
import WordGraph.Proofs.EdgeTable.Compact

/-!
# Every edge is handed out once

Whatever calls are made at the two ends of a compact table, what has come from the front, what is still
to come, and what has come from the back, backwards, are the edges of the table in order. So no edge is
left out or handed out twice, also where the ends meet.

Of a list of edges to come this is plain, as each call takes an edge off one end of it. A span has
positions instead: some edges lie before it, some are to come and some lie behind it, and a call moves
the edge next to its end over to the outside.

* `Pending.edges_handOut` — calls at the ends of a list of edges to come
* `Lies.take`, `Lies.handOut` — calls at the ends of a span are answered in the same way
* `Shared` — what the calls at the ends have handed out, and what is left
* `ofCalls_shared` — that is so for any compact table and any calls
-/

namespace WordGraph.EdgeTable

variable {σ : Type} {e : σ × StateId} {before rest behind : List (σ × StateId)}

/-! ## Lists of edges to come -/

/-- Each call is answered. -/
theorem map_fst_handOut {ι : Type} {take : ι → End → Option (σ × StateId) × ι} (r : ι)
    (ends : List End) : (handOut take r ends).1.map Prod.fst = ends := by
  induction ends generalizing r with
  | nil => rfl
  | cons f ends ih => exact congrArg (f :: ·) (ih _)

theorem takenAt_cons (f g : End) (a : Option (σ × StateId))
    (answers : List (End × Option (σ × StateId))) :
    takenAt f ((g, a) :: answers) = takenAt f [(g, a)] ++ takenAt f answers := by
  rw [← List.singleton_append, takenAt, List.filterMap_append]
  rfl

namespace Pending

/-- The edge that a call answers is taken off its end. -/
theorem edges_take (p : Pending σ) (f : End) :
    p.edges = takenAt .front [(f, (p.take f).1)] ++ (p.take f).2.edges ++
      (takenAt .back [(f, (p.take f).1)]).reverse := by
  cases f with
  | front =>
    have h := edges_popFront p
    cases ha : p.popFront.1 <;> simpa [take, takenAt, ha] using h
  | back =>
    have h := edges_popBack p
    cases ha : p.popBack.1 <;> simpa [take, takenAt, ha] using h

/-- **What calls at the ends hand out and what they leave** are all the edges that were to come. -/
theorem edges_handOut (p : Pending σ) (ends : List End) :
    p.edges = takenAt .front (handOut take p ends).1 ++ (handOut take p ends).2.edges ++
      (takenAt .back (handOut take p ends).1).reverse := by
  induction ends generalizing p with
  | nil => simp [handOut, takenAt]
  | cons f ends ih =>
    have hstep := edges_take p f
    rw [ih (p.take f).2] at hstep
    rw [hstep, handOut, takenAt_cons .front f _ (handOut take (p.take f).2 ends).1,
      takenAt_cons .back f _ (handOut take (p.take f).2 ends).1]
    simp only [List.reverse_append, List.append_assoc]

/-- Where nothing is to come, nothing is handed out. -/
theorem eq_none_of_handOut {p : Pending σ} (h : p.edges = []) (ends : List End) :
    ∀ a ∈ (handOut take p ends).1, a.2 = none := by
  have htake : ∀ f, p.take f = (none, p) := by
    obtain ⟨edges⟩ := p
    obtain rfl : edges = [] := h
    intro f
    cases f <;> rfl
  induction ends with
  | nil => exact fun a ha => nomatch ha
  | cons f ends ih =>
    rw [handOut, htake]
    exact List.forall_mem_cons.2 ⟨rfl, ih⟩

end Pending

/-! ## Spans -/

namespace Compact.Span

/-- The span of the edges in between. -/
def within (before rest behind : List (σ × StateId)) : Span σ :=
  ⟨pack (before ++ rest ++ behind), before.length, before.length + rest.length⟩

theorem next_within_nil : (within before [] behind).next = (none, within before [] behind) :=
  if_pos (Nat.le_refl _)

theorem nextBack_within_nil :
    (within before [] behind).nextBack = (none, within before [] behind) :=
  if_pos (Nat.le_refl _)

/-- The first edge to come passes to the front. -/
theorem next_within_cons : (within before (e :: rest) behind).next =
    (some e, within (before ++ [e]) rest behind) := by
  have hlt : ¬before.length + (e :: rest).length ≤ before.length := by simp
  rw [next, within, if_neg hlt, get?_pack, within]
  simp [Nat.add_comm, Nat.add_left_comm]

/-- The last edge to come passes to the back. -/
theorem nextBack_within_concat : (within before (rest ++ [e]) behind).nextBack =
    (some e, within before rest (e :: behind)) := by
  have hlt : ¬before.length + (rest ++ [e]).length ≤ before.length := by simp
  have hlist : before ++ (rest ++ [e]) ++ behind = before ++ rest ++ e :: behind := by simp
  have hback : before.length + (rest ++ [e]).length - 1 = before.length + rest.length := by
    simp [← Nat.add_assoc]
  have hlast : (before ++ rest ++ e :: behind)[before.length + rest.length]? = some e := by
    rw [← List.length_append, List.getElem?_append_right (Nat.le_refl _), Nat.sub_self]
    rfl
  rw [nextBack, within, if_neg hlt, hlist, hback, get?_pack, hlast, within]

/-- A span lies where so many edges are to come. -/
def Lies (r : Span σ) (p : Pending σ) : Prop :=
  ∃ before behind, r = within before p.edges behind

namespace Lies

variable {r : Span σ} {p : Pending σ}

theorem iter_pack (es : List (σ × StateId)) : Lies (pack es).iter ⟨es⟩ :=
  ⟨[], [], by simp [iter, within]⟩

/-- **A call at an end is answered as by the list of edges to come**, and moves this end. -/
theorem take (h : Lies r p) (f : End) : (r.take f).1 = (p.take f).1 ∧
    Lies (r.take f).2 (p.take f).2 := by
  obtain ⟨before, behind, rfl⟩ := h
  obtain ⟨rest⟩ := p
  cases f with
  | front =>
    cases rest with
    | nil =>
      rw [Span.take, next_within_nil]
      exact ⟨rfl, before, behind, rfl⟩
    | cons e rest =>
      rw [Span.take, next_within_cons]
      exact ⟨rfl, before ++ [e], behind, rfl⟩
  | back =>
    rcases List.eq_nil_or_concat rest with rfl | ⟨rest, e, rfl⟩
    · rw [Span.take, nextBack_within_nil]
      exact ⟨rfl, before, behind, rfl⟩
    · have hpop : Pending.take ⟨rest ++ [e]⟩ .back = (some e, ⟨rest⟩) := by
        simp [Pending.take, Pending.popBack]
      rw [List.concat_eq_append, Span.take, nextBack_within_concat, hpop]
      exact ⟨rfl, before, e :: behind, rfl⟩

/-- **So are any number of calls.** -/
theorem handOut (h : Lies r p) (ends : List End) :
    (handOut Span.take r ends).1 = (handOut Pending.take p ends).1 ∧
      Lies (handOut Span.take r ends).2 (handOut Pending.take p ends).2 := by
  induction ends generalizing r p with
  | nil => exact ⟨rfl, h⟩
  | cons f ends ih =>
    obtain ⟨hanswer, hrest⟩ := h.take f
    obtain ⟨hanswers, hleft⟩ := ih hrest
    refine ⟨?_, hleft⟩
    simp only [EdgeTable.handOut, hanswer, hanswers]

theorem toList_eq (h : Lies r p) : r.toList = p.edges := by
  obtain ⟨before, behind, rfl⟩ := h
  obtain ⟨rest⟩ := p
  induction rest generalizing before with
  | nil => exact toList_nil next_within_nil
  | cons e rest ih => rw [toList_cons next_within_cons, ih]

theorem sizeHint_eq (h : Lies r p) : r.sizeHint = (p.size, some p.size) := by
  obtain ⟨before, behind, rfl⟩ := h
  simp [sizeHint, within, Pending.size]

theorem length?_eq (h : Lies r p) : r.length? = some p.size := by
  rw [length?, h.sizeHint_eq, if_pos rfl]

end Lies

end Compact.Span

/-! ## Compact tables -/

namespace Compact

variable [Symbol σ]

/-- What calls at the ends of a fresh span of `p` have been answered, where `r` is left of the span. -/
structure Shared (p : Compact σ) (edges : List (σ × StateId)) (ends : List End)
    (answers : List (End × Option (σ × StateId))) (r : Span σ) : Prop where
  /-- The edges are in increasing order of their symbols, -/
  increasing : Increasing edges
  /-- and they are those that the table has. -/
  mem_iff : ∀ c s, (c, s) ∈ edges ↔ p.find? c = some s
  get?_eq : ∀ i, p.get? i = edges[i]?
  /-- Each call has its answer, -/
  ends_eq : answers.map Prod.fst = ends
  /-- which is that of the list of edges to come. -/
  answers_eq : answers = (handOut Pending.take ⟨edges⟩ ends).1
  /-- What has come from the front, what is to come, and what has come from the back, backwards, are
  the edges. -/
  edges_eq : takenAt .front answers ++ r.toList ++ (takenAt .back answers).reverse = edges
  sizeHint_eq : r.sizeHint = (r.toList.length, some r.toList.length)
  length?_eq : r.length? = some r.toList.length
  /-- Once nothing is to come, no call hands out an edge any more. -/
  exhausted : r.length? = some 0 → ∀ more, ∀ a ∈ (handOut Span.take r more).1, a.2 = none

/-- **Each edge is handed out once**, whatever calls have made a compact table and whatever calls are
made at its ends. -/
theorem ofCalls_shared (calls : List (σ × StateId)) (ends : List End) :
    Shared (ofCalls calls) (EdgeTable.ofCalls calls).edges ends
      (handOut Span.take (ofCalls calls).iter ends).1
      (handOut Span.take (ofCalls calls).iter ends).2 := by
  rw [ofCalls_eq]
  set t := EdgeTable.ofCalls calls
  obtain ⟨hanswers, hlies⟩ := (Span.Lies.iter_pack t.edges).handOut ends
  have hedges := Pending.edges_handOut ⟨t.edges⟩ ends
  rw [← hanswers, ← hlies.toList_eq] at hedges
  constructor
  case increasing => exact t.sorted
  case mem_iff =>
    intro c s
    rw [(answers_pack t).find?_eq, find?_eq_some_iff]
  case get?_eq => exact (answers_pack t).get?_eq
  case ends_eq => exact map_fst_handOut _ _
  case answers_eq => exact hanswers
  case edges_eq => exact hedges.symm
  case sizeHint_eq => rw [hlies.sizeHint_eq, hlies.toList_eq, Pending.size]
  case length?_eq => rw [hlies.length?_eq, hlies.toList_eq, Pending.size]
  case exhausted =>
    intro hzero more
    rw [hlies.length?_eq, Option.some.injEq, Pending.size, List.length_eq_zero_iff] at hzero
    rw [(hlies.handOut more).1]
    exact Pending.eq_none_of_handOut hzero more

end Compact

end WordGraph.EdgeTable
