import WordGraph.Arena.Longest
import WordGraph.Proofs.Arena.Postorder

/-!
# The longest accepted words

In a list of states where each comes behind its children, the length that is found for each is that
of a longest word accepted from it, and there is none just if no word is accepted.

* `Longest` — a length is that of a longest word with a property
* `longestPaths_spec` — the lengths of all listed states
-/

namespace WordGraph.Arena

variable {σ : Type} [Symbol σ] {a : Arena σ} {root s t : StateId} {c : σ} {x : State σ}
  {p q : Word σ → Prop} {n m : Nat} {o best : Option Nat} {lengths : Array (Option Nat)}
  {done order : List StateId}

/-- A length is that of a longest word with a property; nothing if no word has it. -/
def Longest (p : Word σ → Prop) : Option Nat → Prop
  | none => ∀ w, ¬p w
  | some n => (∃ w, p w ∧ w.length = n) ∧ ∀ w, p w → w.length ≤ n

omit [Symbol σ] in
theorem Longest.congr (h : ∀ w, p w ↔ q w) : Longest p o ↔ Longest q o := by
  rw [funext fun w => propext (h w)]

omit [Symbol σ] in
/-- There is one length of a longest word at most. -/
theorem Longest.unique {o' : Option Nat} (h : Longest p o) (h' : Longest p o') : o = o' := by
  cases o with
  | none =>
    cases o' with
    | none => rfl
    | some m =>
      obtain ⟨⟨w, hw, -⟩, -⟩ := h'
      exact absurd hw (h w)
  | some n =>
    obtain ⟨⟨w, hw, rfl⟩, hle⟩ := h
    cases o' with
    | none => exact absurd hw (h' w)
    | some m =>
      obtain ⟨⟨v, hv, rfl⟩, hle'⟩ := h'
      rw [Nat.le_antisymm (hle' w hw) (hle v hv)]

omit [Symbol σ] in
/-- The words of a child get one symbol longer. -/
theorem longest_longerBy (h : Longest p best) (h' : Longest q o) :
    Longest (fun w => p w ∨ ∃ v, w = c :: v ∧ q v) (longerBy best o) := by
  cases o with
  | none =>
    have hq : ∀ w, (p w ∨ ∃ v, w = c :: v ∧ q v) ↔ p w :=
      fun w => or_iff_left fun ⟨v, _, hv⟩ => h' v hv
    rw [Longest.congr hq]
    cases best <;> exact h
  | some n =>
    obtain ⟨⟨v, hv, rfl⟩, hle⟩ := h'
    cases best with
    | none =>
      refine ⟨⟨c :: v, .inr ⟨v, rfl, hv⟩, rfl⟩, ?_⟩
      rintro _ (hw | ⟨u, rfl, hu⟩)
      · exact absurd hw (h _)
      · exact Nat.succ_le_succ (hle u hu)
    | some m =>
      obtain ⟨⟨w, hw, rfl⟩, hle'⟩ := h
      refine ⟨?_, ?_⟩
      · rcases Nat.le_total w.length (v.length + 1) with hwv | hvw
        · exact ⟨c :: v, .inr ⟨v, rfl, hv⟩, (Nat.max_eq_right hwv).symm⟩
        · exact ⟨w, .inl hw, (Nat.max_eq_left hvw).symm⟩
      · rintro _ (hu | ⟨u, rfl, hu⟩)
        · exact Nat.le_trans (hle' _ hu) (Nat.le_max_left ..)
        · exact Nat.le_trans (Nat.succ_le_succ (hle u hu)) (Nat.le_max_right ..)

/-- The length for a state, by those for its children. -/
theorem longest_longestFrom (hx : a.get? s = some x)
    (hc : ∀ {c t}, a.Edge s c t → Longest (a.Accepts t) (lengths[t.slot]?.join)) :
    Longest (a.Accepts s) (longestFrom lengths x) := by
  -- the edges that are still to come add their words to those that are found
  have hfold : ∀ (es : List (σ × StateId)) (p : Word σ → Prop) (best : Option Nat),
      (∀ e ∈ es, Longest (a.Accepts e.2) (lengths[e.2.slot]?.join)) → Longest p best →
      Longest (fun w => p w ∨ ∃ e ∈ es, ∃ v, w = e.1 :: v ∧ a.Accepts e.2 v)
        ((es.map Prod.snd).foldl (fun best t => longerBy best (lengths[t.slot]?.join)) best) := by
    intro es
    induction es with
    | nil =>
      intro p best _ hp
      simpa using hp
    | cons e es ih =>
      intro p best hes hp
      have hes := List.forall_mem_cons.1 hes
      refine (Longest.congr fun w => ?_).1 (ih _ _ hes.2 (longest_longerBy (c := e.1) hp hes.1))
      simp only [List.mem_cons, exists_eq_or_imp, or_assoc]
  have hnil : Longest (fun w : Word σ => w = [] ∧ x.isFinal)
      (if x.isFinal then some 0 else none) := by
    cases hf : x.isFinal with
    | true => exact ⟨⟨[], by simp, rfl⟩, by simp⟩
    | false => exact fun w hw => by simp at hw
  refine (Longest.congr fun w => ?_).1 (hfold x.edges.edges _ _
    (fun e he => hc ((edge_iff_mem hx).2 he)) hnil)
  cases w with
  | nil => simp [accepts_nil_iff_of_get? hx]
  | cons c w =>
    simp only [reduceCtorEq, false_and, false_or, accepts_cons_iff, edge_iff_mem hx]
    constructor
    · rintro ⟨⟨d, t⟩, he, v, hv, hw⟩
      cases hv
      exact ⟨t, he, hw⟩
    · rintro ⟨t, he, hw⟩
      exact ⟨(c, t), he, w, rfl, hw⟩

/-- Finding the lengths goes through a list of states, if the children of each are in front of it or
were dealt with before. -/
theorem foldlM_longestFrom_spec (hsize : lengths.size = a.slotCount)
    (hlive : ∀ s ∈ order, a.isLive s)
    (hdone : ∀ s ∈ done, Longest (a.Accepts s) (lengths[s.slot]?.join))
    (hfirst : a.ChildrenFirst done order) :
    ∃ lengths', (order.foldlM (fun lengths s => do
        return lengths.setIfInBounds s.slot (longestFrom lengths (← a.state s))) lengths :
          Except Fault (Array (Option Nat))) = .ok lengths' ∧
      ∀ s, s ∈ done ∨ s ∈ order → Longest (a.Accepts s) (lengths'[s.slot]?.join) := by
  induction order generalizing lengths done with
  | nil => exact ⟨lengths, rfl, fun s hs => hdone s (by simpa using hs)⟩
  | cons s order ih =>
    obtain ⟨x, hx⟩ := isLive_iff.1 (hlive s (List.mem_cons_self ..))
    have hs := slot_lt_of_get? hx
    rw [← hsize] at hs
    have hdone' : ∀ t ∈ s :: done, Longest (a.Accepts t)
        ((lengths.setIfInBounds s.slot (longestFrom lengths x))[t.slot]?.join) := by
      intro t ht
      by_cases he : t = s
      · subst he
        rw [Array.getElem?_setIfInBounds_self_of_lt hs]
        exact longest_longestFrom hx fun hedge => hdone _ (hfirst.1 _ _ hedge)
      · rw [Array.getElem?_setIfInBounds_ne (slot_ne he).symm]
        exact hdone t ((List.mem_cons.1 ht).resolve_left he)
    obtain ⟨lengths', hrun, hlong⟩ := ih (by rw [Array.size_setIfInBounds, hsize])
      (fun t ht => hlive t (List.mem_cons_of_mem _ ht)) hdone' hfirst.2
    refine ⟨lengths', ?_, fun t ht => hlong t ?_⟩
    · rw [List.foldlM_cons, state_eq_ok_iff.2 hx]
      exact hrun
    · simpa [or_assoc, or_left_comm] using ht

/-- **The lengths that are found are those of longest words.** -/
theorem Topological.longestPaths_spec (h : a.Topological root order)
    (hlive : ∀ s ∈ order, a.isLive s) :
    ∃ lengths, a.longestPaths order = .ok lengths ∧
      ∀ s ∈ order, Longest (a.Accepts s) (lengths[s.slot]?.join) := by
  have hsize : (Array.replicate a.slotCount (none : Option Nat)).size = a.slotCount :=
    Array.size_replicate
  obtain ⟨lengths, hrun, hlong⟩ :=
    foldlM_longestFrom_spec hsize hlive (by simp) h.childrenFirst
  exact ⟨lengths, hrun, fun s hs => hlong s (.inr hs)⟩

end WordGraph.Arena
