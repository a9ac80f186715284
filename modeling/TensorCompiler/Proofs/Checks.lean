import Mathlib.Data.List.Forall2

/-!
Computations that may fail, read backwards: what has held along the way when one of them has
returned a result. The lemmas take a sequence of checks apart into a conjunction.
-/

namespace TensorCompiler

section

variable {ε α β : Type}

@[simp] theorem bind_ok_iff {x : Except ε α} {g : α → Except ε β} {b : β} :
    x >>= g = .ok b ↔ ∃ a, x = .ok a ∧ g a = .ok b := by
  cases x <;> simp [bind, Except.bind]

/-- The same for a check, which returns nothing. -/
@[simp high] theorem check_bind_ok_iff {x : Except ε Unit} {g : Unit → Except ε β} {b : β} :
    x >>= g = .ok b ↔ x = .ok () ∧ g () = .ok b := by
  cases x <;> simp [bind, Except.bind]

@[simp] theorem throw_ok_iff {e : ε} {a : α} : (throw e : Except ε α) = .ok a ↔ False := by
  simp [throw, throwThe, MonadExceptOf.throw]

@[simp] theorem pure_ok_iff {a b : α} : (pure a : Except ε α) = .ok b ↔ a = b := by
  simp [pure, Except.pure]

theorem ite_ok_iff {c : Prop} [Decidable c] {x y : Except ε α} {a : α} :
    (if c then x else y) = .ok a ↔ (c ∧ x = .ok a) ∨ (¬ c ∧ y = .ok a) := by
  split <;> simp [*]

@[simp] theorem mapError_ok_iff {ε' : Type} {g : ε → ε'} {x : Except ε α} {a : α} :
    x.mapError g = .ok a ↔ x = .ok a := by
  cases x <;> simp [Except.mapError]

theorem forM_ok_iff (check : α → Except ε Unit) (l : List α) :
    forM l check = .ok () ↔ ∀ x ∈ l, check x = .ok () := by
  induction l with
  | nil => simp
  | cons x l ih => rw [List.forM_cons, List.forall_mem_cons, check_bind_ok_iff, ih]

/-- A traversal that succeeds has succeeded at every element, in order. -/
theorem mapM_ok_iff {g : α → Except ε β} {l : List α} {bs : List β} :
    l.mapM g = .ok bs ↔ List.Forall₂ (fun a b => g a = .ok b) l bs := by
  induction l generalizing bs with
  | nil =>
    rw [List.mapM_nil, pure_ok_iff, List.forall₂_nil_left_iff]
    exact eq_comm
  | cons a l ih =>
    simp only [List.mapM_cons, bind_ok_iff, pure_ok_iff, List.forall₂_cons_left_iff]
    constructor
    · rintro ⟨b, hb, bs', hbs', rfl⟩
      exact ⟨b, bs', hb, ih.1 hbs', rfl⟩
    · rintro ⟨b, bs', hb, hbs', rfl⟩
      exact ⟨b, hb, bs', ih.2 hbs', rfl⟩

end

end TensorCompiler
