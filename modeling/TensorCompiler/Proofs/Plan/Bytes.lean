import TensorCompiler.Proofs.Plan.Slots
import Mathlib.Algebra.Order.BigOperators.Group.List
import Mathlib.Algebra.Order.Ring.Nat

/-!
The bytes of the arena. A group has no more slots than members, so the slots of all groups take no
more bytes than the activations, each on its own (`bytesOf_layout_le`).
-/

namespace TensorCompiler.Plan

variable {buffers : List Buffer}

/-- The bytes that the elements of an activation of the group take. -/
def Group.bytes (g : Group) : Nat := g.2 * g.1.bytes

/-- The bytes that the elements of a buffer take. -/
def bytesFor (buffers : List Buffer) (b : Nat) : Nat :=
  ((groupOf buffers b).map Group.bytes).getD 0

theorem length_fill_le (reuse : Bool) (members : List (Nat × LiveRange)) (ends : List Nat) :
    (fill reuse ends members).2.length ≤ ends.length + members.length := by
  induction members generalizing ends with
  | nil => exact Nat.le_refl _
  | cons m members ih =>
    unfold fill
    split
    · next i _ =>
      have hset := ih (ends.set i m.2.stop)
      rw [List.length_set] at hset
      exact Nat.le_succ_of_le hset
    · have hnew := ih (ends ++ [m.2.stop])
      rw [List.length_append, List.length_singleton] at hnew
      simp only [List.length_cons]
      omega

theorem layout_slots : (layout reuse buffers ranges).1 = (groups buffers ranges).foldl
    (fun slots g => appendSlots g (fill reuse [] (members buffers ranges g)).2.length slots) [] :=
  (List.foldl_hom Prod.fst fun _ _ => rfl).symm

theorem bytesOf_appendSlots (g : Group) (count : Nat) (slots : List Slot) :
    bytesOf (appendSlots g count slots) = bytesOf slots + count * g.bytes := by
  induction count with
  | zero => simp [appendSlots]
  | succ count ih =>
    rw [appendSlots_succ, bytesOf_append, ih, Nat.succ_mul, Nat.add_assoc]
    rfl

theorem bytesOf_fold (count : Group → Nat) (gs : List Group) (slots : List Slot) :
    bytesOf (gs.foldl (fun slots g => appendSlots g (count g) slots) slots) =
      bytesOf slots + (gs.map fun g => count g * g.bytes).sum := by
  induction gs generalizing slots with
  | nil => rfl
  | cons g gs ih =>
    rw [List.foldl_cons, ih, bytesOf_appendSlots, List.map_cons, List.sum_cons, Nat.add_assoc]

/-- A buffer is in one group at most. -/
theorem sum_group_le {gs : List Group} (hgs : gs.Nodup) (b : Nat) :
    (gs.map fun g => if groupOf buffers b = some g then g.bytes else 0).sum ≤ bytesFor buffers b := by
  induction gs with
  | nil => exact Nat.zero_le _
  | cons g gs ih =>
    obtain ⟨hg, hgs⟩ := List.nodup_cons.1 hgs
    rw [List.map_cons, List.sum_cons]
    by_cases hb : groupOf buffers b = some g
    · have hrest : ∀ g' ∈ gs, (if groupOf buffers b = some g' then g'.bytes else 0) = 0 := by
        intro g' hg'
        refine if_neg fun hb' => hg ?_
        rwa [Option.some.inj (hb.symm.trans hb')]
      rw [List.map_congr_left hrest, if_pos hb, bytesFor, hb]
      simp
    · rw [if_neg hb, Nat.zero_add]
      exact ih hgs

theorem sum_groups_le {gs : List Group} (hgs : gs.Nodup) (entries : List (Nat × LiveRange)) :
    (gs.map fun g => entries.countP (fun x => groupOf buffers x.1 = some g) * g.bytes).sum ≤
      (entries.map fun x => bytesFor buffers x.1).sum := by
  induction entries with
  | nil => simp
  | cons x entries ih =>
    have hcons (g : Group) : (x :: entries).countP (fun x => groupOf buffers x.1 = some g) * g.bytes =
        (if groupOf buffers x.1 = some g then g.bytes else 0) +
          entries.countP (fun x => groupOf buffers x.1 = some g) * g.bytes := by
      by_cases hx : groupOf buffers x.1 = some g
      · simp [hx, Nat.add_mul, Nat.add_comm]
      · simp [hx]
    simp only [hcons, List.sum_map_add, List.map_cons, List.sum_cons]
    exact Nat.add_le_add (sum_group_le hgs x.1) ih

/-- The slots take no more bytes than the activations, each on its own. -/
theorem bytesOf_layout_le (reuse : Bool) (buffers : List Buffer) (ranges : IdMap LiveRange) :
    bytesOf (layout reuse buffers ranges).1 ≤
      (ranges.entries.map fun x => bytesFor buffers x.1).sum := by
  rw [layout_slots, bytesOf_fold, bytesOf, Nat.zero_add]
  refine Nat.le_trans (List.sum_le_sum fun g _ => ?_) (sum_groups_le groups_nodup _)
  have hfill := length_fill_le reuse (members buffers ranges g) []
  rw [List.length_nil, Nat.zero_add, members, (List.mergeSort_perm ..).length_eq,
    ← List.countP_eq_length_filter] at hfill
  exact Nat.mul_le_mul_right _ hfill

end TensorCompiler.Plan
