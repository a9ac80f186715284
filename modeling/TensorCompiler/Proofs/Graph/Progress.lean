import TensorCompiler.Proofs.Graph.Arena
import TensorCompiler.Proofs.Graph.Solved
import TensorCompiler.Proofs.Kernel.Progress

/-!
Functions without empty axes. Every node of a verified one computes its results
(`WellTyped.compute_total`), so where no label is looked up its evaluation succeeds
(`Function.evaluate_total`).
-/

namespace TensorCompiler

variable {α : Type} {s : Storage} {f : Function}

namespace Function

/-- No empty axes: not in the storage that the function names, and not in its results. -/
structure Positive (s : Storage) (f : Function) : Prop where
  storage : ∀ ref ∈ f.storageRefs, ∀ type, s.type? ref = some type → 0 ∉ type.shape
  results : ∀ n ∈ f.nodes, ∀ type ∈ n.results, 0 ∉ type.shape

/-- Every bias of a dense layer is of floats. -/
def FloatBiases (s : Storage) (f : Function) : Prop :=
  ∀ n ∈ f.nodes, n.op = .fullyConnected → ∀ x w b, n.inputs = [x, w, b] →
    ∀ type, f.valueType s b = .ok type → type.isFloat = true

/-- The arithmetic of every node stays within words. -/
def Fits (s : Storage) (f : Function) : Prop :=
  ∀ n ∈ f.nodes, ∀ types, List.Forall₂ (fun v type => f.valueType s v = .ok type) n.inputs types →
    n.op.fits types n.results = true

theorem Positive.operand (h : f.Positive s) {n : Node} (hn : n ∈ f.nodes) {v : Value}
    (hv : v ∈ n.inputs) {j : Nat} {type : TensorType} (htype : OperandType s f j v type) :
    0 ∉ type.shape := by
  cases v with
  | node i r =>
    obtain ⟨-, m, hm, hr⟩ := htype
    exact h.results m (List.mem_of_getElem? hm) type (List.mem_of_getElem? hr)
  | storage ref =>
    refine h.storage ref (mem_storageRefs.2 (List.mem_flatMap.2 ⟨n, hn, ?_⟩)) type htype
    exact Node.mem_storageRefs_of_read hv

variable {j : Nat} {n : Node} {types : List TensorType}

theorem WellTyped.volume_lt (hwt : WellTyped s f j n types) (h : f.Fits s) (hn : n ∈ f.nodes)
    {type : TensorType} (htype : type ∈ types ++ n.results) : type.volume < Word.size :=
  Operator.volume_lt_of_fits
    (h n hn types (hwt.operands.imp fun _ _ ht => (operandType_iff.1 ht).1)) htype

theorem WellTyped.positive (hwt : WellTyped s f j n types) (h : f.Positive s) (hn : n ∈ f.nodes) :
    ∀ type ∈ types, 0 ∉ type.shape := by
  intro type htype
  obtain ⟨v, hv, hoperand⟩ := exists_left_of_forall₂ hwt.operands htype
  exact h.operand hn hv hoperand

theorem WellTyped.floats (hwt : WellTyped s f j n types) (h : f.FloatBiases s) (hn : n ∈ f.nodes)
    (hop : n.op = .fullyConnected) : ∀ type ∈ types, type.isFloat = true := by
  have htyped := hwt.typed
  have hoperands := hwt.operands
  rw [hop] at htyped
  generalize n.results = results at htyped
  cases htyped with
  | fullyConnected m d depth ds bias =>
    obtain ⟨x, w, b, hin, -, -, hb⟩ := inputs_three hoperands
    have hbias := h n hn hop x w b hin _ (operandType_iff.1 hb).1
    simpa [TensorType.isFloat, TensorType.float] using hbias

/-- Kernels take the operands of a node, where no axis is empty and every bias is of floats. -/
theorem WellTyped.supports (hwt : WellTyped s f j n types) (hpos : f.Positive s)
    (hbias : f.FloatBiases s) (hn : n ∈ f.nodes) : n.op.supports types = true := by
  have hpositive := hwt.positive hpos hn
  have hfloats := hwt.floats hbias hn
  have htyped := hwt.typed
  generalize n.results = results at htyped
  generalize n.op = op at hfloats htyped ⊢
  cases htyped with
  | fullyConnected m d depth ds bias => exact hfloats rfl ⟨bias, [depth]⟩ (by simp)
  | batched op m ds =>
    exact decide_eq_true (Nat.ne_of_gt (Shape.volume_pos (hpositive (.float ds) (by simp))))
  | _ => rfl

/-- A node computes its results from filled operands, except where a label is outside its row. -/
theorem WellTyped.compute_total [Scalar α] [Scalar.Rowwise α] (hwt : WellTyped s f j n types)
    (hpos : f.Positive s) (hbias : f.FloatBiases s) (hn : n ∈ f.nodes) {ts : List (Tensor α)}
    (hts : ts.map Tensor.type = types) (hfilled : ∀ t ∈ ts, t.Filled) (hsink : n.op.isSink = false)
    (hlabels : ∀ (y : Shaped α) (labels : Shaped Int64), n.op = .softMaxGrad →
      ts = [.floats y, .indices labels] →
      ∀ l ∈ labels.values.toList, (Kernel.labelIndex? (y.shape.getD 1 0) l).isSome) :
    ∃ ps, n.op.compute n.results ts = some ps ∧ List.Forall₂ Payload.Fills n.results ps :=
  Operator.compute_total hwt.typed hts hfilled hsink (hwt.supports hpos hbias hn) hlabels

end Function

theorem tensors_of_fills {types : List TensorType} {ps : List (Payload α)}
    (h : List.Forall₂ Payload.Fills types ps) : ∃ ts, tensors types ps = some ts := by
  induction h with
  | nil => exact ⟨[], rfl⟩
  | cons hp _ ih =>
    obtain ⟨t, ht, -⟩ := Tensor.ofPayload_of_fits hp.fits
    obtain ⟨ts, hts⟩ := ih
    exact ⟨t :: ts, by simp [tensors, ht, hts, Except.toOption]⟩

variable [Scalar α] [Scalar.Rowwise α]

/-- The visit of a node that is no step of descent and looks up no label. -/
theorem Solving.step_total {start g : Valuation α} {done rest : List Node} {n : Node}
    (h : Solving s f start done g) (hnodes : done ++ n :: rest = f.nodes)
    (hpos : f.Positive s) (hbias : f.FloatBiases s) {types : List TensorType}
    (hwt : Function.WellTyped s f done.length n types) (hsgd : ∀ p, n.op ≠ .sgd p)
    (hlabels : n.op ≠ .softMaxGrad) : ∃ g', g.step n = some g' := by
  have hn : f.nodes[done.length]? = some n := by simp [← hnodes]
  by_cases hsave : ∃ ref, n.op = .save ref
  · obtain ⟨ref, hop⟩ := hsave
    obtain ⟨v, x, -, -, -, -, -, hstep⟩ := h.evaluated.step_save hn hwt hop
    exact ⟨_, hstep⟩
  · obtain ⟨ts, hvalues, hts, hstep⟩ :=
      h.evaluated.step_compute hn hwt (fun ref hop => hsave ⟨ref, hop⟩) hsgd
    have htypes : ts.map Tensor.type = types :=
      List.forall₂_eq_eq_eq ▸ List.forall₂_map_left_iff.2 hts
    have hfilled (t : Tensor α) (ht : t ∈ ts) : t.Filled := by
      obtain ⟨v, -, hv⟩ := exists_left_of_forall₂ (h.inputs hnodes hvalues) ht
      exact hv.filled
    have hsink : n.op.isSink = false := by
      cases hop : n.op <;> simp [Operator.isSink, hop] at hsave hsgd ⊢
    obtain ⟨ps, hcompute, hfills⟩ := hwt.compute_total hpos hbias (List.mem_of_getElem? hn) htypes
      hfilled hsink fun _ _ hop => absurd hop hlabels
    obtain ⟨rs, hrs⟩ := tensors_of_fills hfills
    exact ⟨g.push rs, by rw [hstep, hcompute, Option.bind_some, hrs, Option.map_some]⟩

/-- The evaluation of a verified function without empty axes succeeds, when it reads no storage that
it writes, takes no steps of descent and looks up no labels. -/
theorem Function.evaluate_total (hverify : f.verify s = .ok ())
    (hunread : ∀ n ∈ f.nodes, ∀ ref, Function.Writes n ref → ¬ f.Reads ref)
    (hpos : f.Positive s) (hbias : f.FloatBiases s) (hsgd : ∀ n ∈ f.nodes, ∀ p, n.op ≠ .sgd p)
    (hlabels : ∀ n ∈ f.nodes, n.op ≠ .softMaxGrad) {vars : List (Tensor α)}
    {bindings : IdMap (Tensor α)} {momentum : Nat → Option (Tensor α)}
    (hready : f.Ready s ⟨vars, bindings, momentum, []⟩) :
    ∃ g, f.evaluate vars bindings momentum = (.ok (), g) := by
  have hvisit (rest : List Node) : ∀ (done : List Node) (g : Valuation α), done ++ rest = f.nodes →
      Solving s f ⟨vars, bindings, momentum, []⟩ done g → ∃ g', g.visit rest = (.ok (), g') := by
    induction rest with
    | nil => exact fun _ g _ _ => ⟨g, rfl⟩
    | cons n rest ih =>
      intro done g hnodes hsolving
      have hmem : n ∈ f.nodes := hnodes ▸ List.mem_append_right _ List.mem_cons_self
      have hn : f.nodes[done.length]? = some n := by simp [← hnodes]
      obtain ⟨types, hwt⟩ := wellTyped_of_verify hverify hn
      obtain ⟨g', hstep⟩ :=
        hsolving.step_total hnodes hpos hbias hwt (hsgd n hmem) (hlabels n hmem)
      obtain ⟨g'', hvisit⟩ := ih (done ++ [n]) g' (by simp [hnodes])
        (hsolving.step hnodes hverify hsgd hunread hstep)
      exact ⟨g'', by simp only [Valuation.visit, hstep, hvisit]⟩
  exact hvisit f.nodes [] _ rfl (solving_of_ready hready)

end TensorCompiler
