import TensorCompiler.Run.Interpreter
import TensorCompiler.Proofs.Checks

/-!
What an instruction reads and what it stores. Its effects depend on the memory through its `sources`
only, and they are for its `targets`, in order.
-/

namespace TensorCompiler

namespace Instruction

/-- The buffers an instruction reads; its destinations come before them. -/
def sources (i : Instruction) : List Nat :=
  match i.op with
  | .alloc | .dealloc | .view => []
  | op => i.buffers.drop (op.signature.count .write)

/-- The buffers an instruction stores into. -/
def targets (i : Instruction) : List Nat :=
  match i.op, i.buffers with
  | .alloc, _ | .dealloc, _ | .view, _ => []
  | .sgd _, [weight, _, momentum] => [weight, momentum]
  | op, buffers => buffers.take (op.signature.count .write)

theorem sources_eq {i : Instruction} (hmarker : i.op.isMarker = false) (hview : i.op ≠ .view) :
    i.sources = i.buffers.drop (i.op.signature.count .write) := by
  unfold sources
  split <;> simp_all [Opcode.isMarker]

theorem mem_buffers_of_mem_sources {i : Instruction} {b : Nat} (h : b ∈ i.sources) :
    b ∈ i.buffers := by
  unfold sources at h
  split at h
  · cases h
  · cases h
  · cases h
  · exact List.mem_of_mem_drop h

theorem targets_eq {i : Instruction} (hmarker : i.op.isMarker = false) (hview : i.op ≠ .view)
    (hsgd : ∀ p, i.op ≠ .sgd p) : i.targets = i.buffers.take (i.op.signature.count .write) := by
  unfold targets
  split <;> simp_all [Opcode.isMarker]

theorem mem_buffers_of_mem_targets {x : Instruction} {b : Nat} (h : b ∈ x.targets) :
    x.op.isMarker = false ∧ b ∈ x.buffers := by
  unfold targets at h
  split at h
  · cases h
  · cases h
  · cases h
  · next hop hbuffers =>
    rw [hop, hbuffers]
    exact ⟨rfl, by rcases List.mem_pair.1 h with rfl | rfl <;> simp⟩
  · next op hop _ _ _ =>
    refine ⟨?_, List.mem_of_mem_take h⟩
    cases hcode : x.op <;> simp_all [Opcode.isMarker]

end Instruction

variable {α : Type}

theorem Memory.readFloats_congr {a a' : Artifact} {m m' : Memory α} {b : Nat}
    (h : m.read a b = m'.read a' b) : m.readFloats a b = m'.readFloats a' b := by
  rw [readFloats, h, readFloats]

theorem Memory.readIndices_congr {a a' : Artifact} {m m' : Memory α} {b : Nat}
    (h : m.read a b = m'.read a' b) : m.readIndices a b = m'.readIndices a' b := by
  rw [readIndices, h, readIndices]

namespace Instruction

theorem stored_targets {b : Nat} {result : Except KernelFault (Array α)}
    {ws : List (Nat × Payload α)} (h : stored b result = .ok ws) : ws.map (·.1) = [b] := by
  cases result with
  | ok values =>
    obtain rfl := Except.ok.inj h
    rfl
  | error fault => cases h

theorem storedLayer_targets {x w b : Nat} {result : Except KernelFault (Kernel.LayerGradients α)}
    {ws : List (Nat × Payload α)} (h : storedLayer x w b result = .ok ws) :
    ws.map (·.1) = [x, w, b] := by
  cases result with
  | ok g =>
    obtain rfl := Except.ok.inj h
    rfl
  | error fault => cases h

theorem commit_append {a : Artifact} {m m₁ : Memory α} {ws : List (Nat × Payload α)}
    (h : commit a m ws = (.ok (), m₁)) (ws' : List (Nat × Payload α)) :
    commit a m (ws ++ ws') = commit a m₁ ws' := by
  induction ws generalizing m with
  | nil =>
    obtain ⟨-, rfl⟩ := Prod.mk.inj h
    rfl
  | cons w ws ih =>
    rw [commit] at h
    rw [List.cons_append, commit]
    split at h
    · next hstore => exact ih h
    · cases h

variable [Scalar α]

theorem effects_congr {a a' : Artifact} {m m' : Memory α} {i : Instruction}
    (htype : ∀ b ∈ i.buffers, a.typeOf b = a'.typeOf b)
    (hread : ∀ b ∈ i.sources, m.read a b = m'.read a' b) :
    i.effects a m = i.effects a' m' := by
  have hfloats : ∀ b ∈ i.sources, m.readFloats a b = m'.readFloats a' b :=
    fun b hb => Memory.readFloats_congr (hread b hb)
  have hindices : ∀ b ∈ i.sources, m.readIndices a b = m'.readIndices a' b :=
    fun b hb => Memory.readIndices_congr (hread b hb)
  have hne : (Access.read == Access.write) = false := rfl
  have hne' : (Access.readWrite == Access.write) = false := rfl
  unfold effects
  split <;> rename_i hop hbuffers <;> try rfl
  all_goals
    simp only [sources, hop, hbuffers, Opcode.signature, List.count_cons, List.count_nil, hne, hne',
      List.drop_succ_cons, List.drop_zero, List.forall_mem_cons, beq_self_eq_true, if_true,
      Bool.false_eq_true, if_false, Nat.zero_add] at htype hread hfloats hindices
    simp only [htype, hread, hfloats, hindices]

/-- Effects are for the targets, in order. -/
theorem effects_targets {a : Artifact} {m : Memory α} {i : Instruction}
    {ws : List (Nat × Payload α)} (h : i.effects a m = .ok ws) : ws.map (·.1) = i.targets := by
  unfold effects at h
  unfold targets
  split at h <;> rename_i hop hbuffers <;> try simp only [hop, hbuffers]
  all_goals repeat obtain ⟨_, -, h⟩ := bind_ok_iff.1 h
  all_goals first
    | exact stored_targets h
    | exact storedLayer_targets h
    | cases h <;> rfl
    | skip
  case h_22 =>
    rcases ite_ok_iff.1 h with ⟨-, h⟩ | ⟨-, h⟩
    · cases h
    · obtain ⟨_, -, h⟩ := bind_ok_iff.1 h
      obtain ⟨_, -, h⟩ := bind_ok_iff.1 h
      cases h
      rfl

/-- An instruction that succeeds has stored its effects. -/
theorem execute_ok_iff {a : Artifact} {m m' : Memory α} {x : Instruction} :
    x.execute a m = (.ok (), m') ↔ ∃ ws, x.effects a m = .ok ws ∧ commit a m ws = (.ok (), m') := by
  unfold execute
  cases x.effects a m with
  | error e => simp [Except.mapError]
  | ok ws =>
    rcases hcommit : commit a m ws with ⟨result, m₁⟩
    cases result <;> simp [hcommit, Except.mapError]

end Instruction

/-! ## Runs -/

namespace Artifact

variable [Scalar α] {a : Artifact}

theorem runFrom_cons {m m' : Memory α} {x : Instruction} (h : x.execute a m = (.ok (), m'))
    (xs : List Instruction) : a.runFrom m (x :: xs) = a.runFrom m' xs := by
  rw [runFrom, h]

theorem runFrom_append (a : Artifact) {m m' : Memory α} {xs : List Instruction}
    (h : a.runFrom m xs = (.ok (), m')) (ys : List Instruction) :
    a.runFrom m (xs ++ ys) = a.runFrom m' ys := by
  induction xs generalizing m with
  | nil =>
    obtain ⟨-, rfl⟩ := Prod.mk.inj h
    rfl
  | cons x xs ih =>
    rw [List.cons_append, runFrom]
    rw [runFrom] at h
    split at h
    · exact ih h
    · cases h

theorem runFrom_append_error (a : Artifact) {m m' : Memory α} {xs : List Instruction} {r : RunFault}
    (h : a.runFrom m xs = (.error r, m')) (ys : List Instruction) :
    a.runFrom m (xs ++ ys) = (.error r, m') := by
  induction xs generalizing m with
  | nil => cases h
  | cons x xs ih =>
    rw [List.cons_append, runFrom]
    rw [runFrom] at h
    split at h
    · exact ih h
    · exact h

theorem runFrom_append_ok_iff {m m' : Memory α} {xs ys : List Instruction} :
    a.runFrom m (xs ++ ys) = (.ok (), m') ↔
      ∃ m₁, a.runFrom m xs = (.ok (), m₁) ∧ a.runFrom m₁ ys = (.ok (), m') := by
  constructor
  · intro h
    induction xs generalizing m with
    | nil => exact ⟨m, rfl, h⟩
    | cons x xs ih =>
      rw [List.cons_append, runFrom] at h
      rw [runFrom]
      split at h
      · exact ih h
      · cases h
  · rintro ⟨m₁, hxs, hys⟩
    rw [a.runFrom_append hxs, hys]

/-- What the instructions store when they are executed one after the other: buffers with elements. -/
def stores (a : Artifact) : Memory α → List Instruction → List (Nat × Payload α)
  | _, [] => []
  | m, x :: xs => (x.effects a m).toOption.getD [] ++ a.stores (x.execute a m).2 xs

/-- A run that succeeds has committed its stores. -/
theorem commit_stores {m m' : Memory α} {xs : List Instruction}
    (h : a.runFrom m xs = (.ok (), m')) : Instruction.commit a m (a.stores m xs) = (.ok (), m') := by
  induction xs generalizing m with
  | nil =>
    obtain ⟨-, rfl⟩ := Prod.mk.inj h
    rfl
  | cons x xs ih =>
    rw [runFrom] at h
    split at h
    · next m₁ hexecute =>
      obtain ⟨ws, heffects, hcommit⟩ := Instruction.execute_ok_iff.1 hexecute
      rw [stores, heffects, hexecute]
      exact (Instruction.commit_append hcommit _).trans (ih h)
    · cases h

theorem mem_stores {m : Memory α} {xs : List Instruction} {w : Nat × Payload α}
    (h : w ∈ a.stores m xs) : ∃ x ∈ xs, w.1 ∈ x.targets := by
  induction xs generalizing m with
  | nil => cases h
  | cons x xs ih =>
    rcases List.mem_append.1 h with hw | hw
    · cases heffects : x.effects a m with
      | error e =>
        rw [heffects] at hw
        cases hw
      | ok ws =>
        rw [heffects] at hw
        exact ⟨x, List.mem_cons_self, Instruction.effects_targets heffects ▸ List.mem_map_of_mem hw⟩
    · obtain ⟨y, hy, hmem⟩ := ih hw
      exact ⟨y, List.mem_cons_of_mem _ hy, hmem⟩

end Artifact

end TensorCompiler
