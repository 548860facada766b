import Std.Data.HashMap
import WordGraph.Arena

/-!
# The register

The register holds one state of each kind: two states are of the same kind if words end at both or
at neither and they have the same edges. Edges are compared by the identifiers of their targets, so
the kind of a state is asked for only when each of its children is the registered one of its own
kind; then states of the same kind are the states from which the same words are accepted.
-/

namespace WordGraph

/-- The kind of a state: all of it but the serial. -/
structure Fingerprint (σ : Type) [Symbol σ] where
  isFinal : Bool
  edges : EdgeTable σ
  deriving DecidableEq

variable {σ : Type} [Symbol σ]

instance : Hashable (EdgeTable σ) := ⟨fun t => hash t.edges⟩

instance : Hashable (Fingerprint σ) := ⟨fun p => mixHash (hash p.isFinal) (hash p.edges)⟩

/-- The kind of a state. -/
def State.fingerprint (x : State σ) : Fingerprint σ := ⟨x.isFinal, x.edges⟩

/-- The registered state of each kind. -/
structure Register (σ : Type) [Symbol σ] where
  classes : Std.HashMap (Fingerprint σ) StateId

namespace Register

/-- The register without states. -/
def empty : Register σ := ⟨∅⟩

instance : EmptyCollection (Register σ) := ⟨empty⟩
instance : Inhabited (Register σ) := ⟨empty⟩

/-- The number of registered states. -/
def size (r : Register σ) : Nat := r.classes.size

/-- The registered state of a kind. -/
def get? (r : Register σ) (p : Fingerprint σ) : Option StateId := r.classes[p]?

/-- Whether a state is the registered one of its kind. -/
def isCanonical (r : Register σ) (a : Arena σ) (s : StateId) : Except Fault Bool :=
  return r.get? (← a.state s).fingerprint == some s

/-- Insists that a state is the registered one of its kind. -/
def requireCanonical (r : Register σ) (a : Arena σ) (s : StateId) : Except Fault Unit := do
  unless ← r.isCanonical a s do throw .unregisteredChild

/-- The kind of a state whose children are all registered. Only then does the kind tell which words
the state accepts. -/
def kind (r : Register σ) (a : Arena σ) (s : StateId) : Except Fault (Fingerprint σ) := do
  let x ← a.state s
  forM x.edges.targets (r.requireCanonical a)
  return x.fingerprint

/-- The registered state of the same kind as a state. -/
def find? (r : Register σ) (a : Arena σ) (s : StateId) : Except Fault (Option StateId) :=
  return r.get? (← r.kind a s)

/-- Registers a state unless its kind has one, and answers whether it did. -/
def insert (r : Register σ) (a : Arena σ) (s : StateId) : Except Fault (Bool × Register σ) := do
  let p ← r.kind a s
  return if r.classes.contains p then (false, r) else (true, ⟨r.classes.insert p s⟩)

/-- The registered state of the same kind as a state, which is the state itself if its kind had
none. -/
def canonicalize (r : Register σ) (a : Arena σ) (s : StateId) :
    Except Fault (StateId × Register σ) := do
  let p ← r.kind a s
  match r.get? p with
  | some t => return (t, r)
  | none => return (s, ⟨r.classes.insert p s⟩)

/-! ## The view by kind -/

@[simp] theorem get?_empty (p : Fingerprint σ) : (∅ : Register σ).get? p = none := by
  show (∅ : Std.HashMap (Fingerprint σ) StateId)[p]? = none
  simp

theorem isCanonical_eq_ok_iff {r : Register σ} {a : Arena σ} {s : StateId} {b : Bool} :
    r.isCanonical a s = .ok b ↔ ∃ x, a.get? s = some x ∧ b = (r.get? x.fingerprint == some s) := by
  unfold Register.isCanonical
  cases h : a.state s with
  | error f =>
    have hs := (Arena.state_eq_error_iff.1 h).1
    simp [hs, bind, Except.bind]
  | ok x =>
    have hs := Arena.state_eq_ok_iff.1 h
    simp [hs, bind, Except.bind, pure, Except.pure, eq_comm]

theorem requireCanonical_eq_ok_iff {r : Register σ} {a : Arena σ} {s : StateId} :
    r.requireCanonical a s = .ok () ↔ ∃ x, a.get? s = some x ∧ r.get? x.fingerprint = some s := by
  have hiff := isCanonical_eq_ok_iff (r := r) (a := a) (s := s) (b := true)
  unfold requireCanonical
  cases h : r.isCanonical a s with
  | error f => rw [h] at hiff; simpa [bind, Except.bind] using hiff
  | ok b =>
    rw [h] at hiff
    cases b <;>
      simpa [bind, Except.bind, pure, Except.pure, throw, throwThe, MonadExceptOf.throw] using hiff

theorem forM_requireCanonical_eq_ok_iff {r : Register σ} {a : Arena σ} {ss : List StateId} :
    forM ss (r.requireCanonical a) = .ok () ↔ ∀ s ∈ ss, r.requireCanonical a s = .ok () := by
  induction ss with
  | nil => simp [pure, Except.pure]
  | cons s ss ih =>
    rw [List.forM_cons, List.forall_mem_cons, ← ih]
    cases h : r.requireCanonical a s <;> simp [bind, Except.bind]

/-- A state has a kind if each of its children is the registered state of its own kind. -/
theorem kind_eq_ok_iff {r : Register σ} {a : Arena σ} {s : StateId} {p : Fingerprint σ} :
    r.kind a s = .ok p ↔
      ∃ x, a.get? s = some x ∧ p = x.fingerprint ∧
        ∀ t ∈ x.edges.targets, ∃ y, a.get? t = some y ∧ r.get? y.fingerprint = some t := by
  simp only [← requireCanonical_eq_ok_iff, ← forM_requireCanonical_eq_ok_iff]
  unfold kind
  cases h : a.state s with
  | error f =>
    have hs := (Arena.state_eq_error_iff.1 h).1
    simp [hs, bind, Except.bind]
  | ok x =>
    have hs := Arena.state_eq_ok_iff.1 h
    cases hf : forM x.edges.targets (r.requireCanonical a) with
    | error f => simp [hs, hf, bind, Except.bind]
    | ok u => simp [hs, hf, bind, Except.bind, pure, Except.pure, eq_comm]

theorem find?_eq_ok_iff {r : Register σ} {a : Arena σ} {s : StateId} {t : Option StateId} :
    r.find? a s = .ok t ↔ ∃ p, r.kind a s = .ok p ∧ t = r.get? p := by
  unfold find?
  cases h : r.kind a s with
  | error f => simp [bind, Except.bind]
  | ok p => simp [bind, Except.bind, pure, Except.pure, eq_comm]

/-- A kind keeps the state that was registered first. -/
theorem get?_of_insert {r r' : Register σ} {a : Arena σ} {s : StateId} {isNew : Bool}
    (h : r.insert a s = .ok (isNew, r')) :
    ∃ p, r.kind a s = .ok p ∧ isNew = (r.get? p).isNone ∧
      ∀ q, r'.get? q = if q = p then some ((r.get? q).getD s) else r.get? q := by
  unfold insert at h
  cases hs : r.kind a s with
  | error f => rw [hs] at h; cases h
  | ok p =>
    rw [hs] at h
    refine ⟨p, rfl, ?_⟩
    simp only [bind, Except.bind, pure, Except.pure] at h
    by_cases hc : r.classes.contains p
    -- the kind is registered, and nothing changes
    · rw [if_pos hc] at h
      obtain ⟨rfl, rfl⟩ := Prod.mk.inj (Except.ok.inj h)
      obtain ⟨t, ht⟩ : ∃ t, r.get? p = some t := by
        rw [← Option.isSome_iff_exists, get?, Std.HashMap.isSome_getElem?_eq_contains]
        exact hc
      refine ⟨by simp [ht], fun q => ?_⟩
      split
      · next hq => rw [hq, ht]; rfl
      · rfl
    -- the kind is new, and one entry is made
    · rw [if_neg hc] at h
      obtain ⟨rfl, rfl⟩ := Prod.mk.inj (Except.ok.inj h)
      have ht : r.get? p = none := by
        rw [get?, Std.HashMap.getElem?_eq_none_of_contains_eq_false (by simpa using hc)]
      refine ⟨by simp [ht], fun q => ?_⟩
      show (r.classes.insert p s)[q]? = _
      rw [Std.HashMap.getElem?_insert]
      split
      · next hq =>
        obtain rfl := eq_of_beq hq
        simp [ht]
      · next hq => rw [if_neg (fun e => hq (by simp [e]))]; rfl

end Register

end WordGraph
