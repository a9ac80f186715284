import TensorCompiler.Proofs.Run.Frames
import TensorCompiler.Proofs.Run.Simulation

/-!
Which operations change a storage. The operation of a node stores where a storage is only if the node
writes that storage (`Lowered.writes_of_target`); so between two operations a storage keeps what it
holds, unless a node between them writes it (`Lowered.get?_between`).
-/

namespace TensorCompiler

/-- No node from `i` on and before `k` writes the storage. -/
def Function.Unwritten (f : Function) (ref : StorageRef) (i k : Nat) : Prop :=
  ∀ ⦃j : Nat⦄ ⦃n : Node⦄, i ≤ j → j < k → f.nodes[j]? = some n → ¬ Function.Writes n ref

/-- A run that gets to one operation has got to every operation before it. -/
theorem Artifact.runFrom_take_of_le {α : Type} [Scalar α] {a : Artifact} {m mₖ : Memory α}
    {xs : List Instruction} {i k : Nat} (hik : i ≤ k) (h : a.runFrom m (xs.take k) = (.ok (), mₖ)) :
    ∃ mᵢ, a.runFrom m (xs.take i) = (.ok (), mᵢ) ∧
      a.runFrom mᵢ ((xs.take k).drop i) = (.ok (), mₖ) := by
  rw [← List.take_append_drop i (xs.take k), List.take_take, Nat.min_eq_left hik] at h
  exact Artifact.runFrom_append_ok_iff.1 h

namespace Lowering.Lowered

open TensorCompiler.Lowering.Stream

variable {α : Type} [Scalar α] {s : Storage} {f : Function} {reuse : Bool} {st : Stream}
  {a : Artifact} {m mᵢ mₖ : Memory α} {ref : StorageRef} {i k : Nat}

/-- The operation of a node stores where a storage is only if the node writes the storage. -/
theorem writes_of_target (h : Lowered s f reuse st a) {j : Nat} {x : Instruction}
    (hx : a.operations[j]? = some x) {b : Nat} (hb : b ∈ x.targets)
    (hlocate : a.locate b = .ok ref.location) :
    ∃ n, f.nodes[j]? = some n ∧ Function.Writes n ref := by
  rw [h.operations_eq] at hx
  obtain ⟨n, types, hn, hwt, he⟩ := h.emitted hx
  have hweight {ref' : StorageRef} (hb : st.weights.lookup ref' = some b) : ref' = ref :=
    StorageRef.location_injective (Except.ok.inj ((h.locate_weight hb).symm.trans hlocate))
  refine ⟨n, hn, ?_⟩
  cases he with
  | view => cases hb
  | @save ref _ _ dst hop _ _ hdst =>
    obtain rfl := List.mem_singleton.1 hb
    exact .inl (hweight hdst ▸ hop)
  | @descent p g ref gradient weight state name d hop hin _ hw _ hstate =>
    rcases (by simpa [Instruction.targets, Instruction.buffers] using hb : b = weight ∨ b = state)
      with rfl | rfl
    · exact .inr ⟨p, hop, by rw [hin, ← hweight hw]; rfl⟩
    · have hmomentum := (h.locate_momentum ⟨p, _, _, hx⟩).symm.trans hlocate
      exact absurd (Except.ok.inj hmomentum).symm (StorageRef.location_ne_state _ b)
  | compute hop hsrcs hlen hdsts =>
    -- results are in slots
    rw [(compute_parts hwt hop hsrcs hlen).2] at hb
    obtain ⟨r, hr⟩ := List.mem_iff_getElem?.1 hb
    obtain ⟨-, n', d, hn', -, hd, hkind⟩ := h.describes.value (hdsts hr)
    obtain rfl := Option.some.inj (hn.symm.trans hn')
    obtain ⟨l, hl, rfl⟩ := exists_lifetime h.verified h.describes hd (hkind.of_computes hop)
    obtain ⟨slot, hslot⟩ := h.exists_slot hl
    exact absurd (Except.ok.inj ((hslot.located (h.root_self hl)).symm.trans hlocate)).symm
      (ref.location_ne_slot slot)

/-- Operations of nodes that do not write a storage leave what it holds. -/
theorem get?_between (h : Lowered s f reuse st a) (hunwritten : f.Unwritten ref i k)
    (hrun : a.runFrom mᵢ ((a.operations.take k).drop i) = (.ok (), mₖ)) :
    mₖ.get? ref.location = mᵢ.get? ref.location := by
  have hframe : (a.runFrom mᵢ ((a.operations.take k).drop i)).2.get? ref.location =
      mᵢ.get? ref.location := by
    refine Artifact.runFrom_frame fun x hx b hb hlocate => ?_
    obtain ⟨q, hq⟩ := List.mem_iff_getElem?.1 hx
    rw [List.getElem?_drop] at hq
    have hlt : i + q < k := by
      have hbound := (List.getElem?_eq_some_iff.1 hq).1
      rw [List.length_take] at hbound
      omega
    rw [List.getElem?_take_of_lt hlt] at hq
    obtain ⟨n, hn, hwrites⟩ := h.writes_of_target hq hb hlocate
    exact hunwritten (Nat.le_add_right i q) hlt hn hwrites
  rwa [hrun] at hframe

end Lowering.Lowered

end TensorCompiler
