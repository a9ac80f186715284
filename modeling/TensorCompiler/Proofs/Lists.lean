import Mathlib.Data.List.Forall2
import Mathlib.Data.List.Nodup

/-!
Facts about lists that the developments share: the last element, duplicates, and the positions in
the concatenation of blocks.
-/

namespace TensorCompiler

theorem getElem?_snoc {α : Type} (l : List α) (a : α) (i : Nat) :
    (l ++ [a])[i]? = if i = l.length then some a else l[i]? := by
  grind

theorem lookup_snoc {α β : Type} [BEq α] [LawfulBEq α] [DecidableEq α] {l : List (α × β)} {a : α}
    {b : β} (h : l.lookup a = none) (a' : α) :
    (l ++ [(a, b)]).lookup a' = if a' = a then some b else l.lookup a' := by
  by_cases ha : a' = a
  · subst ha
    simp [List.lookup_append, h]
  · have hne : (a' == a) = false := by simpa using ha
    simp [List.lookup_append, List.lookup_cons, ha, hne]

theorem nodup_eraseDups {α : Type} [BEq α] [LawfulBEq α] : (l : List α) → l.eraseDups.Nodup
  | [] => by simp
  | a :: l => by
    rw [List.eraseDups_cons, List.nodup_cons]
    exact ⟨by simp, nodup_eraseDups _⟩
termination_by l => l.length
decreasing_by exact Nat.lt_succ_of_le (List.length_filter_le _ _)

theorem mapM_congr {α β : Type} {f g : α → Option β} {l : List α} (h : ∀ a ∈ l, f a = g a) :
    l.mapM f = l.mapM g := by
  induction l with
  | nil => rfl
  | cons a l ih =>
    rw [List.mapM_cons, List.mapM_cons, h a List.mem_cons_self,
      ih fun b hb => h b (List.mem_cons_of_mem _ hb)]

theorem mapM_eq_some_map {α β : Type} {f : α → Option β} {g : α → β} {l : List α}
    (h : ∀ a ∈ l, f a = some (g a)) : l.mapM f = some (l.map g) := by
  rw [mapM_congr h]
  exact List.mapM_pure

/-- The only element with its key, where the keys are distinct. -/
theorem filter_eq_singleton {α κ : Type} [DecidableEq κ] {key : α → κ} {l : List α}
    (h : (l.map key).Nodup) {a : α} (ha : a ∈ l) : l.filter (fun b => key b = key a) = [a] := by
  induction l with
  | nil => cases ha
  | cons b l ih =>
    obtain ⟨hb, hl⟩ := List.nodup_cons.1 h
    rcases List.mem_cons.1 ha with rfl | ha
    · rw [List.filter_cons_of_pos (by simp), List.filter_eq_nil_iff.2]
      intro c hc heq
      exact hb (of_decide_eq_true heq ▸ List.mem_map_of_mem hc)
    · have hne : key b ≠ key a := fun heq => hb (heq ▸ List.mem_map_of_mem ha)
      rw [List.filter_cons_of_neg (by simpa using hne), ih hl ha]

/-- The suffix from a position on begins with the element there. -/
theorem getElem?_of_drop {α : Type} {l rest : List α} {k : Nat} {a : α}
    (h : l.drop k = a :: rest) : l[k]? = some a ∧ l.drop (k + 1) = rest := by
  constructor
  · rw [← Nat.add_zero k, ← List.getElem?_drop, h]
    rfl
  · rw [← List.drop_drop, h]
    rfl

/-- The element at a position of a filtered list stands in the list before those that come after it. -/
theorem exists_split_of_filter {α : Type} {p : α → Bool} {l : List α} {i : Nat} {a : α}
    (h : (l.filter p)[i]? = some a) : ∃ before after, l = before ++ a :: after ∧
      after.filter p = (l.filter p).drop (i + 1) := by
  obtain ⟨hi, rfl⟩ := List.getElem?_eq_some_iff.1 h
  have hsplit := List.take_append_drop i (l.filter p)
  rw [← List.getElem_cons_drop hi] at hsplit
  obtain ⟨l₁, l₂, hl, -, hrest⟩ := List.filter_eq_append_iff.1 hsplit.symm
  obtain ⟨l₃, l₄, rfl, -, -, hafter⟩ := List.filter_eq_cons_iff.1 hrest
  exact ⟨l₁ ++ l₃, l₄, hl.trans (List.append_assoc ..).symm, hafter⟩

/-- Two elements of a list stand in one order or the other. -/
theorem pairwise_cases {α : Type} {R : α → α → Prop} {l : List α} (h : l.Pairwise R) {x y : α}
    (hx : x ∈ l) (hy : y ∈ l) : x = y ∨ R x y ∨ R y x := by
  induction h with
  | nil => cases hx
  | cons hhead _ ih =>
    rcases List.mem_cons.1 hx with hx | hx <;> rcases List.mem_cons.1 hy with hy | hy
    · exact .inl (hx.trans hy.symm)
    · exact .inr (.inl (hx ▸ hhead _ hy))
    · exact .inr (.inr (hy ▸ hhead _ hx))
    · exact ih hx hy

/-- Every element of the first of two related lists has a partner in the second. -/
theorem exists_right_of_forall₂ {α β : Type} {R : α → β → Prop} {as : List α} {bs : List β}
    (h : List.Forall₂ R as bs) {a : α} (ha : a ∈ as) : ∃ b ∈ bs, R a b := by
  induction h with
  | nil => cases ha
  | cons hab _ ih =>
    rcases List.mem_cons.1 ha with rfl | ha
    · exact ⟨_, List.mem_cons_self, hab⟩
    · obtain ⟨b, hb, hab⟩ := ih ha
      exact ⟨b, List.mem_cons_of_mem _ hb, hab⟩

theorem exists_left_of_forall₂ {α β : Type} {R : α → β → Prop} {as : List α} {bs : List β}
    (h : List.Forall₂ R as bs) {b : β} (hb : b ∈ bs) : ∃ a ∈ as, R a b :=
  exists_right_of_forall₂ h.flip hb

/-- Two lists that are related to a third are related to each other. -/
theorem forall₂_of_left {α β γ : Type} {R : α → β → Prop} {S : α → γ → Prop} {T : β → γ → Prop}
    {as : List α} {bs : List β} {cs : List γ} (hbs : List.Forall₂ R as bs)
    (hcs : List.Forall₂ S as cs)
    (h : ∀ {a : α} {b : β} {c : γ}, a ∈ as → R a b → S a c → T b c) : List.Forall₂ T bs cs := by
  induction hbs generalizing cs with
  | nil =>
    cases hcs
    exact .nil
  | cons hab _ ih =>
    cases hcs with
    | cons hac hcs =>
      exact .cons (h List.mem_cons_self hab hac) (ih hcs fun ha => h (List.mem_cons_of_mem _ ha))

/-! ## Blocks -/

section

variable {α β : Type} {g : α → List β} {l : List α}

/-- An element of a concatenation is an element of one block, at the position where the block
starts and on. -/
theorem getElem?_flatMap_iff {p : Nat} {y : β} : (l.flatMap g)[p]? = some y ↔
    ∃ j q a, l[j]? = some a ∧ (g a)[q]? = some y ∧ p = ((l.take j).flatMap g).length + q := by
  induction l generalizing p with
  | nil => simp
  | cons a l ih =>
    rw [List.flatMap_cons, List.getElem?_append]
    constructor
    · intro h
      split at h
      · exact ⟨0, p, a, rfl, h, by simp⟩
      · obtain ⟨j, q, a', ha', hq, hp⟩ := ih.1 h
        refine ⟨j + 1, q, a', ha', hq, ?_⟩
        rw [List.take_succ_cons, List.flatMap_cons, List.length_append]
        omega
    · rintro ⟨j, q, a', ha', hq, rfl⟩
      cases j with
      | zero =>
        obtain rfl := Option.some.inj ha'
        have hlt := (List.getElem?_eq_some_iff.1 hq).1
        simpa [hlt] using hq
      | succ j =>
        rw [List.take_succ_cons, List.flatMap_cons, List.length_append, if_neg (by omega)]
        exact ih.2 ⟨j, q, a', ha', hq, by omega⟩

/-- A later block starts after the end of an earlier one. -/
theorem flatMap_take_le {i j : Nat} {a : α} (ha : l[i]? = some a) (hij : i < j) :
    ((l.take i).flatMap g).length + (g a).length ≤ ((l.take j).flatMap g).length := by
  obtain ⟨hi, rfl⟩ := List.getElem?_eq_some_iff.1 ha
  have hsplit : l.take (i + 1) = l.take i ++ [l[i]] := List.take_succ_eq_append_getElem hi
  have htaken : (l.take (i + 1)).flatMap g = (l.take i).flatMap g ++ g l[i] := by
    rw [hsplit, List.flatMap_append, List.flatMap_singleton]
  have hle : l.take (i + 1) <+: l.take j := List.take_prefix_take_left (Nat.succ_le_of_lt hij)
  obtain ⟨rest, hrest⟩ := hle
  rw [← hrest, List.flatMap_append, List.length_append, htaken, List.length_append]
  exact Nat.le_add_right _ _

end

theorem inputs_one {α β : Type} {R : α → β → Prop} {inputs : List α} {t : β}
    (h : List.Forall₂ R inputs [t]) : ∃ a, inputs = [a] ∧ R a t := by
  obtain ⟨a, rest, ha, hrest, rfl⟩ := List.forall₂_cons_right_iff.1 h
  cases hrest
  exact ⟨a, rfl, ha⟩

theorem inputs_two {α β : Type} {R : α → β → Prop} {inputs : List α} {t u : β}
    (h : List.Forall₂ R inputs [t, u]) : ∃ a b, inputs = [a, b] ∧ R a t ∧ R b u := by
  obtain ⟨a, rest, ha, hrest, rfl⟩ := List.forall₂_cons_right_iff.1 h
  obtain ⟨b, rfl, hb⟩ := inputs_one hrest
  exact ⟨a, b, rfl, ha, hb⟩

theorem inputs_three {α β : Type} {R : α → β → Prop} {inputs : List α} {t u v : β}
    (h : List.Forall₂ R inputs [t, u, v]) :
    ∃ a b c, inputs = [a, b, c] ∧ R a t ∧ R b u ∧ R c v := by
  obtain ⟨a, rest, ha, hrest, rfl⟩ := List.forall₂_cons_right_iff.1 h
  obtain ⟨b, c, rfl, hb, hc⟩ := inputs_two hrest
  exact ⟨a, b, c, rfl, ha, hb, hc⟩

end TensorCompiler
