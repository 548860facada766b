/-!
# Sums over lists

`total f l` is the sum of the natural numbers that `f` gives to the members of a list `l`.
-/

namespace WordGraph

variable {α : Type}

/-- The sum of the numbers of the members of a list. -/
def total (f : α → Nat) (l : List α) : Nat := l.foldr (fun a n => f a + n) 0

@[simp] theorem total_nil (f : α → Nat) : total f [] = 0 := rfl

@[simp] theorem total_cons (f : α → Nat) (a : α) (l : List α) :
    total f (a :: l) = f a + total f l := rfl

@[simp] theorem total_append (f : α → Nat) (l m : List α) :
    total f (l ++ m) = total f l + total f m := by
  induction l with
  | nil => simp
  | cons a l ih =>
    simp only [List.cons_append, total_cons, ih]
    omega

theorem total_map {β : Type} (f : β → Nat) (g : α → β) (l : List α) :
    total f (l.map g) = total (fun a => f (g a)) l := by
  induction l with
  | nil => rfl
  | cons a l ih => simp [ih]

theorem length_flatMap_eq_total {β : Type} (f : α → List β) (l : List α) :
    (l.flatMap f).length = total (fun a => (f a).length) l := by
  induction l with
  | nil => rfl
  | cons a l ih => rw [List.flatMap_cons, List.length_append, ih, total_cons]

/-- Leaving members out never makes the sum greater. -/
theorem total_filter_le (f : α → Nat) (p : α → Bool) (l : List α) :
    total f (l.filter p) ≤ total f l := by
  induction l with
  | nil => exact Nat.le_refl _
  | cons a l ih =>
    rw [List.filter_cons]
    split
    · simpa using ih
    · exact Nat.le_trans ih (Nat.le_add_left _ _)

end WordGraph
