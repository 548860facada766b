import WordGraph.Error
import WordGraph.Lifecycle
import WordGraph.StateId

/-!
# The journal

Operations on an automaton write down what they do. `Run` is the outcome of such an operation: its
answer, or the error that it is refused with, and the entries written until then. Entries are
written in the order of events, and an error keeps those that came before it.
-/

namespace WordGraph

/-- How much detail an entry is about. -/
inductive Level where
  | debug
  | trace
  deriving DecidableEq, Repr

/-- The name of a level. -/
def Level.text : Level → String
  | .debug => "DEBUG"
  | .trace => "TRACE"

/-- Something worth writing down. -/
inductive Entry (σ : Type) where
  /-- A word was refused because it comes before the last one. -/
  | refused (word previous : Word σ)
  /-- A state gave way to a registered one of its kind, under an edge of its parent. -/
  | merged (state into : StateId) (symbol : σ)
  /-- The words of so many states were counted. -/
  | numbered (states : Nat)
  /-- The words were counted anew after some were lost. -/
  | recounted (words : Nat)
  | closed (words states registered : Nat)
  | cleared
  | dumped (words nodes edges : Nat)
  | loaded (words nodes : Nat) (lifecycle : Lifecycle)
  deriving DecidableEq, Repr

namespace Entry

variable {σ : Type}

/-- The level of an entry. -/
def level : Entry σ → Level
  | .merged .. => .trace
  | .numbered _ => .trace
  | _ => .debug

/-- The text of an entry. -/
def text [Symbol σ] : Entry σ → String
  | .refused word previous =>
    "rejecting out-of-order word " ++ word.text ++ " after " ++ previous.text
  | .merged state into symbol =>
    "merging " ++ state.text ++ " into " ++ into.text ++ " under " ++ Symbol.text symbol
  | .numbered states => "numbered " ++ toString states ++ " states"
  | .recounted words => "recounted after overwrite: " ++ toString words ++ " words"
  | .closed words states registered =>
    "closed dawg: " ++ toString words ++ " words, " ++ toString states ++ " states, " ++
      toString registered ++ " registered"
  | .cleared => "cleared dawg"
  | .dumped words nodes edges =>
    "dumped dawg: " ++ toString words ++ " words, " ++ toString nodes ++ " nodes, " ++
      toString edges ++ " edges"
  | .loaded words nodes lifecycle =>
    "loaded dawg: " ++ toString words ++ " words, " ++ toString nodes ++ " nodes, " ++
      lifecycle.text

end Entry

/-- The outcome of an operation and the entries that it wrote, the oldest first. -/
structure Run (σ : Type) (α : Type) where
  result : Except (Error σ) α
  entries : List (Entry σ)

namespace Run

variable {σ α β : Type}

/-- An answer without entries. -/
@[always_inline, inline] protected def pure (a : α) : Run σ α := ⟨.ok a, []⟩

/-- One operation after another. -/
@[always_inline, inline] protected def bind (x : Run σ α) (f : α → Run σ β) : Run σ β :=
  match x.result with
  | .ok a =>
    let y := f a
    ⟨y.result, x.entries ++ y.entries⟩
  | .error e => ⟨.error e, x.entries⟩

@[always_inline] instance : Monad (Run σ) where
  pure := Run.pure
  bind := Run.bind

/-- Writes an entry. -/
@[inline] def note (e : Entry σ) : Run σ Unit := ⟨.ok (), [e]⟩

/-- Writes some entries. -/
@[inline] def noteAll (es : List (Entry σ)) : Run σ Unit := ⟨.ok (), es⟩

/-- Is refused. -/
def fail (e : Error σ) : Run σ α := ⟨.error e, []⟩

/-- An answer or an error, without entries. -/
@[inline] def ofExcept (x : Except (Error σ) α) : Run σ α := ⟨x, []⟩

instance : MonadLift (Except (Error σ)) (Run σ) := ⟨ofExcept⟩

@[simp] theorem result_pure (a : α) : (pure a : Run σ α).result = .ok a := rfl

@[simp] theorem entries_pure (a : α) : (pure a : Run σ α).entries = [] := rfl

@[simp] theorem result_bind (x : Run σ α) (f : α → Run σ β) :
    (x >>= f).result = x.result >>= fun a => (f a).result := by
  show (Run.bind x f).result = _
  unfold Run.bind
  cases x.result <;> rfl

theorem entries_bind_of_ok {x : Run σ α} {f : α → Run σ β} {a : α} (h : x.result = .ok a) :
    (x >>= f).entries = x.entries ++ (f a).entries := by
  show (Run.bind x f).entries = _
  simp [Run.bind, h]

theorem entries_bind_of_error {x : Run σ α} {f : α → Run σ β} {e : Error σ}
    (h : x.result = .error e) : (x >>= f).entries = x.entries := by
  show (Run.bind x f).entries = _
  simp [Run.bind, h]

theorem bind_assoc (x : Run σ α) (f : α → Run σ β) {γ : Type} (g : β → Run σ γ) :
    x >>= f >>= g = x >>= fun a => f a >>= g := by
  show Run.bind (Run.bind x f) g = Run.bind x fun a => Run.bind (f a) g
  obtain ⟨r, es⟩ := x
  cases r with
  | error e => rfl
  | ok a =>
    simp only [Run.bind]
    cases (f a).result <;> simp

instance : LawfulMonad (Run σ) :=
  LawfulMonad.mk' (Run σ)
    (fun ⟨r, es⟩ => by
      show Run.bind _ _ = _
      cases r <;> simp [Run.bind, Run.pure])
    (fun a f => by
      show Run.bind (Run.pure a) f = f a
      simp [Run.bind, Run.pure])
    (fun x f g => bind_assoc x f g)

/-! ## Going through a list -/

/-- Goes through a list step by step, behind the reversed list of entries `done`. -/
def foldFrom (f : β → α → Run σ β) (done : List (Entry σ)) (b : β) : List α → Run σ β
  | [] => ⟨.ok b, done.reverse⟩
  | a :: as =>
    let x := f b a
    match x.result with
    | .ok b => foldFrom f (x.entries.reverse ++ done) b as
    | .error e => ⟨.error e, (x.entries.reverse ++ done).reverse⟩

/-- Goes through a list step by step. The entries are gathered on the way, so a long list needs no
deep recursion. -/
def fold (f : β → α → Run σ β) (b : β) (as : List α) : Run σ β := foldFrom f [] b as

theorem foldFrom_eq (f : β → α → Run σ β) (done : List (Entry σ)) (b : β) (as : List α) :
    foldFrom f done b as = ⟨(as.foldlM f b).result, done.reverse ++ (as.foldlM f b).entries⟩ := by
  induction as generalizing b done with
  | nil => simp [foldFrom]
  | cons a as ih =>
    rw [foldFrom, List.foldlM_cons]
    cases h : (f b a).result with
    | ok b' =>
      rw [entries_bind_of_ok h, result_bind, h]
      simp only [ih, List.reverse_append, List.reverse_reverse, List.append_assoc]
      rfl
    | error e =>
      rw [entries_bind_of_error h, result_bind, h]
      simp only [List.reverse_append, List.reverse_reverse]
      rfl

theorem fold_eq_foldlM (f : β → α → Run σ β) (b : β) (as : List α) :
    fold f b as = as.foldlM f b := by
  rw [fold, foldFrom_eq]
  rfl

end Run

end WordGraph
