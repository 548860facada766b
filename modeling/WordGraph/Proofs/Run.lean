import WordGraph.Journal

/-!
# Answers of operations

An operation that is put together from others has an answer just if each of them has one. The lemmas
here take operations apart by their answers, whichever kind of error they are refused with.

* `bind_eq_ok_iff` — one operation after another
* `guard_eq_ok_iff`, `refuse_eq_ok_iff` — an operation behind a check
* `Run.result_liftM_eq_ok_iff` and its companions — an operation that writes no entries
* `FailsOnly` — the errors that an operation can fail with
* `NoFault` — an operation that is refused with a reason at worst
-/

namespace WordGraph

section

variable {ε α β : Type}

@[simp] theorem ok_bind (a : α) (f : α → Except ε β) : (Except.ok a >>= f) = f a := rfl

@[simp] theorem error_bind (e : ε) (f : α → Except ε β) :
    (Except.error e >>= f : Except ε β) = .error e := rfl

theorem bind_eq_ok_iff {x : Except ε α} {f : α → Except ε β} {b : β} :
    x >>= f = .ok b ↔ ∃ a, x = .ok a ∧ f a = .ok b := by
  cases x <;> simp

theorem map_eq_ok_iff {x : Except ε α} {f : α → β} {b : β} :
    f <$> x = .ok b ↔ ∃ a, x = .ok a ∧ f a = b := by
  cases x <;> simp [Functor.map, Except.map]

theorem mapError_eq_ok_iff {ε' : Type} {f : ε → ε'} {x : Except ε α} {a : α} :
    x.mapError f = .ok a ↔ x = .ok a := by
  cases x with
  | error e =>
    show (Except.error (f e) : Except ε' α) = .ok a ↔ _
    simp
  | ok b =>
    show (Except.ok b : Except ε' α) = .ok a ↔ _
    simp

/-- Where the answer of each member of a list is known, so is that of the list. -/
theorem mapM_eq_ok_map {f : α → Except ε β} {g : α → β} {as : List α}
    (h : ∀ a ∈ as, f a = .ok (g a)) : as.mapM f = .ok (as.map g) := by
  induction as with
  | nil => rfl
  | cons a as ih =>
    obtain ⟨ha, has⟩ := List.forall_mem_cons.1 h
    rw [List.mapM_cons, ha, ok_bind, ih has]
    rfl

/-- An operation behind a check has an answer if the check is passed. -/
theorem guard_eq_ok_iff {p : Prop} [Decidable p] {x : Except ε β} {b : β} {e : ε}
    {f : α → Except ε β} :
    (if p then x else throw e >>= f) = .ok b ↔ p ∧ x = .ok b := by
  split
  · next hp => rw [and_iff_right hp]
  · next hp => exact ⟨(nomatch ·), fun h => absurd h.1 hp⟩

theorem refuse_eq_ok_iff {p : Prop} [Decidable p] {x : Except ε β} {b : β} {e : ε}
    {f : α → Except ε β} :
    (if p then throw e >>= f else x) = .ok b ↔ ¬p ∧ x = .ok b := by
  split
  · next hp => exact ⟨(nomatch ·), fun h => absurd hp h.1⟩
  · next hp => rw [and_iff_right hp]

theorem liftM_eq_ok_iff {σ : Type} {x : Except Fault α} {a : α} :
    (liftM x : Except (Error σ) α) = .ok a ↔ x = .ok a :=
  mapError_eq_ok_iff

end

namespace Run

variable {σ α β : Type}

@[simp] theorem result_note (e : Entry σ) : (note e).result = .ok () := rfl

@[simp] theorem result_liftM_ok (a : α) :
    (liftM (.ok a : Except Fault α) : Run σ α).result = .ok a := rfl

@[simp] theorem result_liftM_error (f : Fault) :
    (liftM (.error f : Except Fault α) : Run σ α).result = .error (.fault f) := rfl

theorem result_liftM_eq_ok_iff {x : Except Fault α} {a : α} :
    (liftM x : Run σ α).result = .ok a ↔ x = .ok a :=
  mapError_eq_ok_iff

theorem result_liftM_error_eq_ok_iff {x : Except (Error σ) α} {a : α} :
    (liftM x : Run σ α).result = .ok a ↔ x = .ok a :=
  Iff.rfl

theorem result_liftM_format_eq_ok_iff {x : Except FormatError α} {a : α} :
    (liftM x : Run σ α).result = .ok a ↔ x = .ok a :=
  mapError_eq_ok_iff

theorem result_map (f : α → β) (x : Run σ α) : (f <$> x).result = f <$> x.result := by
  rw [map_eq_pure_bind, result_bind, map_eq_pure_bind]
  rfl

/-- An operation behind a check has an answer if the check is passed. -/
theorem result_guard_eq_ok_iff {p : Prop} [Decidable p] {x : Run σ α} {b : α} {e : Error σ}
    {f : β → Run σ α} :
    (if p then x else fail e >>= f).result = .ok b ↔ p ∧ x.result = .ok b := by
  split
  · next hp => rw [and_iff_right hp]
  · next hp => exact ⟨(nomatch ·), fun h => absurd h.1 hp⟩

end Run

/-! ## What an operation fails with -/

section

variable {σ ε α β : Type}

/-- Whatever error an operation fails with has a property. -/
def FailsOnly (P : ε → Prop) (x : Except ε α) : Prop := ∀ e, x = .error e → P e

namespace FailsOnly

variable {P : ε → Prop} {p : Prop} [Decidable p] {e : ε}

theorem ok (a : α) : FailsOnly P (.ok a : Except ε α) := fun _ => nofun

theorem error (he : P e) : FailsOnly P (.error e : Except ε α) := by
  intro e' h
  cases h
  exact he

theorem bind {x : Except ε α} {f : α → Except ε β} (hx : FailsOnly P x)
    (hf : ∀ a, x = .ok a → FailsOnly P (f a)) : FailsOnly P (x >>= f) := by
  cases x with
  | error e => exact error (hx e rfl)
  | ok a => exact hf a rfl

/-- An operation behind a check fails where the check is not passed, or itself where it is. -/
theorem guard {x : Except ε β} {f : α → Except ε β} (he : ¬p → P e) (hx : p → FailsOnly P x) :
    FailsOnly P (if p then x else throw e >>= f) := by
  split
  · next hp => exact hx hp
  · next hp => exact error (he hp)

theorem refuse {x : Except ε β} {f : α → Except ε β} (he : p → P e) (hx : ¬p → FailsOnly P x) :
    FailsOnly P (if p then throw e >>= f else x) := by
  split
  · next hp => exact error (he hp)
  · next hp => exact hx hp

end FailsOnly

namespace FailsOnly

variable {P : Error σ → Prop} {p : Prop} [Decidable p] {e : Error σ}

/-- An operation on a graph that answers does not fail. -/
theorem lift {x : Except Fault α} (h : ∃ a, x = .ok a) :
    FailsOnly P (liftM x : Except (Error σ) α) := by
  obtain ⟨a, rfl⟩ := h
  exact ok a

theorem lift_format {x : Except FormatError α} (h : FailsOnly (fun e => P (.format e)) x) :
    FailsOnly P (liftM x : Except (Error σ) α) := by
  cases x with
  | error e => exact error (h e rfl)
  | ok a => exact ok a

theorem run_guard {x : Run σ β} {f : α → Run σ β} (he : ¬p → P e)
    (hx : p → FailsOnly P x.result) :
    FailsOnly P (if p then x else Run.fail e >>= f).result := by
  split
  · next hp => exact hx hp
  · next hp => exact error (he hp)

end FailsOnly

/-- Whatever comes of an operation, it is no fault. -/
def NoFault (x : Except (Error σ) α) : Prop := ∀ f, x ≠ .error (.fault f)

end

end WordGraph
