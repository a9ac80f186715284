import TensorCompiler.Artifact.Lowering
import TensorCompiler.Proofs.Graph.Evaluated
import TensorCompiler.Proofs.Graph.Typing
import TensorCompiler.Proofs.Lists
import TensorCompiler.Proofs.Run.Stores

/-!
An instruction of a node computes what the node computes: where its reads give the node's operands,
its effects are the node's results, for its destinations.
-/

namespace TensorCompiler.Lowering

variable {α : Type} {a : Artifact} {m : Memory α}

theorem toOption_ok {ε β : Type} (b : β) : (Except.ok b : Except ε β).toOption = some b := rfl

theorem toOption_bind {ε β γ : Type} (x : Except ε β) (g : β → Except ε γ) :
    (x >>= g).toOption = x.toOption.bind fun b => (g b).toOption := by
  cases x <;> rfl

theorem toOption_readFloats {b : Nat} {t : Tensor α} (h : m.read a b = .ok t) :
    (m.readFloats a b).toOption = t.floats? := by
  unfold Memory.readFloats
  rw [h]
  cases t <;> rfl

theorem toOption_readIndices {b : Nat} {t : Tensor α} (h : m.read a b = .ok t) :
    (m.readIndices a b).toOption = t.indices? := by
  unfold Memory.readIndices
  rw [h]
  cases t <;> rfl

theorem toOption_stored (dst : Nat) (result : Except KernelFault (Array α)) :
    (Instruction.stored dst result).toOption = (single result).map ([dst].zip ·) := by
  cases result <;> rfl

theorem toOption_storedLayer (dx dw db : Nat)
    (result : Except KernelFault (Kernel.LayerGradients α)) :
    (Instruction.storedLayer dx dw db result).toOption =
      (layer result).map ([dx, dw, db].zip ·) := by
  cases result <;> rfl

theorem transposePayload_of_rank [Zero α] {perm : List Nat} {t : Tensor α} {out : Shape}
    (h : perm.length ≠ t.shape.length) : transposePayload perm t out = .error .transposeRank := by
  cases t with
  | floats d =>
    have h : perm.length ≠ d.shape.length := h
    simp [transposePayload, Kernel.transpose, h, Except.map]
  | indices d =>
    have h : perm.length ≠ d.shape.length := h
    simp [transposePayload, Kernel.transpose, h, Except.map]

theorem length_of_single {result : Except KernelFault (Array α)} {ps : List (Payload α)}
    (h : single result = some ps) : ps.length = 1 := by
  cases result <;> cases h
  rfl

theorem length_of_layer {result : Except KernelFault (Kernel.LayerGradients α)}
    {ps : List (Payload α)} (h : layer result = some ps) : ps.length = 3 := by
  cases result <;> cases h
  rfl

variable [Scalar α]

/-- The effects of the instruction of a node, as the results of the node. -/
theorem effects_compute {s : Storage} {op : Operator} {types results : List TensorType}
    {code : Opcode} {srcs dsts : List Nat} {ts : List (Tensor α)} (hop : opcode? op = some code)
    (htyped : Typing.Typed s op types results)
    (hts : List.Forall₂ (fun (t : Tensor α) type => t.type = type) ts types)
    (hsrcs : List.Forall₂ (fun b t => b ∈ read op srcs → m.read a b = .ok t) srcs ts)
    (hdsts : List.Forall₂ (fun b type => a.typeOf b = .ok type) dsts results) :
    ((Instruction.ofBuffers code dsts (read op srcs)).effects a m).toOption =
      (op.compute results ts).map (dsts.zip ·) := by
  have hfloats : List.Forall₂ (fun b t => b ∈ read op srcs →
      (m.readFloats a b).toOption = t.floats?) srcs ts :=
    hsrcs.imp fun _ _ h hb => toOption_readFloats (h hb)
  have hindices : List.Forall₂ (fun b t => b ∈ read op srcs →
      (m.readIndices a b).toOption = t.indices?) srcs ts :=
    hsrcs.imp fun _ _ h hb => toOption_readIndices (h hb)
  -- the operands and results one by one
  cases htyped <;> simp only [opcode?, Option.some.injEq, reduceCtorEq] at hop <;> subst hop <;>
    rcases hts with _ | ⟨-, _ | ⟨-, _ | ⟨-, _ | _⟩⟩⟩ <;>
    rcases hsrcs with _ | ⟨h₁, _ | ⟨h₂, _ | ⟨h₃, _ | _⟩⟩⟩ <;>
    rcases hdsts with _ | ⟨k₁, _ | ⟨k₂, _ | ⟨k₃, _ | _⟩⟩⟩ <;>
    simp only [read, List.take_succ_cons, List.take_zero, List.mem_cons, true_or, or_true,
      true_implies, List.forall₂_cons, List.not_mem_nil, or_false] at *
  all_goals
    simp only [Instruction.ofBuffers, Instruction.effects, Instruction.buffers, List.map_cons,
      List.map_nil, List.cons_append, List.nil_append, Operator.compute, toOption_bind,
      toOption_stored, toOption_storedLayer, Option.bind_eq_bind, Option.map_bind,
      Function.comp_def, toOption_ok, Option.bind_some, *]
  case splat => rfl
  case regression => rfl
  case transpose =>
    split
    · next hperm =>
      rw [transposePayload_of_rank hperm]
      rfl
    · simp only [bind, Except.bind]
      generalize (transposePayload _ _ _ : Except KernelFault (Payload α)) = payload
      cases payload <;> rfl

/-- A node computes as many results as it has. -/
theorem length_of_compute {s : Storage} {op : Operator} {types results : List TensorType}
    {ts : List (Tensor α)} (htyped : Typing.Typed s op types results)
    (hts : List.Forall₂ (fun (t : Tensor α) type => t.type = type) ts types)
    {ps : List (Payload α)} (h : op.compute results ts = some ps) : ps.length = results.length := by
  cases htyped <;> rcases hts with _ | ⟨-, _ | ⟨-, _ | ⟨-, _ | _⟩⟩⟩ <;>
    simp only [Operator.compute, Option.bind_eq_bind, Option.bind_eq_some_iff,
      Option.map_eq_some_iff, Option.some.injEq, reduceCtorEq] at h
  all_goals repeat obtain ⟨_, -, h⟩ := h
  all_goals first
    | rfl
    | exact length_of_single h
    | exact length_of_layer h

/-! ## Descent -/

/-- The elements that a step of descent leaves are those of the kernel; they fit. -/
theorem descended_payloads (p : Descent) (w x t : Tensor α) :
    (Valuation.descended p w x t).map (fun (w, m) => (w.payload, m.payload)) = do
      let w₀ ← w.floats?
      let x₀ ← x.floats?
      let m₀ ← (Tensor.ofPayload w.type t.payload).toOption.bind Tensor.floats?
      let (ws, ms) ← (Kernel.descent p w₀ x₀ m₀).toOption
      return (.floats ws, .floats ms) := by
  unfold Valuation.descended Tensor.withPayload
  cases ht : Tensor.ofPayload w.type t.payload with
  | error e => cases w.floats? <;> cases x.floats? <;> rfl
  | ok m =>
    rcases hw : w.floats? with _ | w₀
    · rfl
    rcases x.floats? with _ | x₀
    · rfl
    rcases hm : m.floats? with _ | m₀
    · simp [toOption_ok, hm]
    rcases hk : Kernel.descent p w₀ x₀ m₀ with e | ⟨ws, ms⟩
    · simp [hm, hk, Except.toOption]
    obtain ⟨hws, hms⟩ := descent_sizes hk
    have hw' : w = .floats w₀ := by
      cases w <;> simp_all [Tensor.floats?]
    have hm' : m = .floats m₀ := by
      cases m <;> simp_all [Tensor.floats?]
    have hpayload := (Tensor.ofPayload_eq_ok.1 ht).2
    have hfits := t.payload_fits
    rw [← hpayload, hm'] at hfits
    have hwfits : Payload.Fits w.type (.floats ws) := by
      rw [hw']
      exact (Tensor.floats w₀).payload_fits.of_size rfl hws
    have hmfits : Payload.Fits t.type (.floats ms) := hfits.of_size rfl hms
    obtain ⟨w', hw₁, -, hwp⟩ := Tensor.ofPayload_of_fits hwfits
    obtain ⟨m', hm₁, -, hmp⟩ := Tensor.ofPayload_of_fits hmfits
    simp [toOption_ok, hm, hk, hw₁, hm₁, hwp, hmp]

/-- The effects of a step of descent. -/
theorem effects_descent {p : Descent} {weight gradient state : Nat} {w x : Tensor α}
    (hw : m.read a weight = .ok w) (hx : m.read a gradient = .ok x)
    (htype : a.typeOf state = .ok w.type) (hlocate : a.locate state = .ok (.state state)) :
    (Instruction.effects a m
        ⟨.sgd p, [⟨weight, .readWrite⟩, ⟨gradient, .read⟩, ⟨state, .readWrite⟩]⟩).toOption =
      ((m.state.get? state).bind (Valuation.descended p w x)).map fun (w, m) =>
        [(weight, w.payload), (state, m.payload)] := by
  have hread : (m.readFloats a state).toOption = (m.state.get? state).bind fun t =>
      (Tensor.ofPayload w.type t.payload).toOption.bind Tensor.floats? := by
    unfold Memory.readFloats
    rw [Memory.read_eq_source, htype]
    simp only [Memory.source, Memory.fetch, Memory.get?, hlocate, bind, Except.bind]
    cases m.state.get? state with
    | none => rfl
    | some t =>
      cases ht : Tensor.ofPayload w.type t.payload with
      | error e => simp [pure, Except.pure, ht, Except.mapError, Except.toOption]
      | ok t' => cases t' <;> simp [pure, Except.pure, ht, Except.mapError, Except.toOption] <;> rfl
  simp only [Instruction.effects, Instruction.buffers, List.map_cons, List.map_nil, toOption_bind,
    toOption_readFloats hw, toOption_readFloats hx, hread]
  cases m.state.get? state with
  | none => cases w.floats? <;> cases x.floats? <;> rfl
  | some t =>
    have hpayloads := congrArg (Option.map fun (q : Payload α × Payload α) =>
      [(weight, q.1), (state, q.2)]) (descended_payloads p w x t)
    rw [Option.map_map] at hpayloads
    refine Eq.trans ?_ hpayloads.symm
    rw [Option.bind_some]
    rcases w.floats? with _ | w₀
    · rfl
    rcases x.floats? with _ | x₀
    · rfl
    rcases (Tensor.ofPayload w.type t.payload).toOption.bind Tensor.floats? with _ | m₀
    · rfl
    rcases hk : Kernel.descent p w₀ x₀ m₀ with e | ⟨ws, ms⟩ <;>
      simp [hk, Except.mapError, Except.toOption, pure, Except.pure]

end TensorCompiler.Lowering
