import TensorCompiler.IdMap
import TensorCompiler.Proofs.Checks

/-!
Finite maps read as functions: equal look-ups make equal maps, and folds of insertions.
-/

namespace TensorCompiler.IdMap

variable {β : Type}

@[simp] theorem contains_iff {m : IdMap β} {i : Nat} :
    m.contains i = true ↔ ∃ b, m.get? i = some b :=
  Option.isSome_iff_exists

theorem contains_eq_false {m : IdMap β} {i : Nat} (h : ∀ b, m.get? i ≠ some b) :
    m.contains i = false := by
  simpa [contains, Option.eq_none_iff_forall_ne_some] using h

/-- Maps with the same look-ups have the same entries, since both list them in order. -/
theorem ext_get? {m m' : IdMap β} (h : ∀ i, m.get? i = m'.get? i) : m = m' := by
  obtain ⟨l, hl⟩ := m
  obtain ⟨l', hl'⟩ := m'
  have hmem (x : Nat × β) : x ∈ l ↔ x ∈ l' := by
    rw [← get?_eq_some_iff ⟨l, hl⟩, ← get?_eq_some_iff ⟨l', hl'⟩, h]
  have hnodup {k : List (Nat × β)} (hk : k.Pairwise fun a b => a.1 < b.1) : k.Nodup :=
    hk.imp fun {a b} hlt (heq : a = b) => absurd (heq ▸ hlt) (Nat.lt_irrefl a.1)
  have hperm := (List.perm_ext_iff_of_nodup (hnodup hl) (hnodup hl')).2 hmem
  obtain rfl := hperm.eq_of_pairwise (fun a b _ _ hab hba => absurd hab (Nat.lt_asymm hba)) hl hl'
  rfl

/-- An insertion for each element of a list; the keys are distinct, so their order is immaterial. -/
theorem get?_foldl_insert {γ : Type} {key : γ → Nat} (value : γ → β) {l : List γ}
    (hl : l.Pairwise fun x y => key x ≠ key y) (m : IdMap β) (i : Nat) (b : β) :
    (l.foldl (fun m x => m.insert (key x) (value x)) m).get? i = some b ↔
      (∃ x ∈ l, key x = i ∧ value x = b) ∨ (∀ x ∈ l, key x ≠ i) ∧ m.get? i = some b := by
  induction l generalizing m with
  | nil => simp
  | cons x l ih =>
    obtain ⟨hx, hl⟩ := List.pairwise_cons.1 hl
    rw [List.foldl_cons, ih hl, get?_insert]
    by_cases hi : key x = i
    · have hne : ∀ y ∈ l, key y ≠ i := fun y hy heq => hx y hy (hi.trans heq.symm)
      have hnot : ¬ ∃ y ∈ l, key y = i ∧ value y = b := fun ⟨y, hy, heq, _⟩ => hne y hy heq
      simp [hi, hnot]
      exact fun _ => hne
    · simp [hi]

/-- The entries of a map, inserted one after the other, give the map. -/
theorem ofList_entries (m : IdMap β) : ofList m.entries = m := by
  refine ext_get? fun i => Option.ext fun b => ?_
  have hkeys : m.entries.Pairwise fun x y => x.1 ≠ y.1 := m.ascending.imp Nat.ne_of_lt
  rw [ofList, get?_foldl_insert (·.2) hkeys, get?_eq_some_iff m]
  simp

end TensorCompiler.IdMap
