import TensorCompiler.Proofs.Graph.Arena
import TensorCompiler.Proofs.Kernel.Results
import TensorCompiler.Training.Adjoint

/-!
The forward-mode tangent of a function over exact rationals: from tangents of the trained storage,
one tangent for every node, and what the losses make of those of their inputs. A value whose gradient
is not wanted has no tangent (`tangent_of_unwanted`).
-/

namespace TensorCompiler

open Kernel

variable {I : Interpretation}

/-- A small change of a value, by flat position. -/
abbrev Tangent (I : Interpretation) : Type := Nat → Exact I

/-! ## Definitions -/

/-- The tangent of an operator's result `out` from those of its operands. Constants and the outputs
of losses do not change. -/
def Operator.tangent (op : Operator) (operands : List (Tensor (Exact I))) (out : Shaped (Exact I))
    (tangents : List (Tangent I)) : Tangent I :=
  match op, operands, tangents with
  | .binary .add, _, [dx, dy] => fun i => dx i + dy i
  | .binary .sub, _, [dx, dy] => fun i => dx i - dy i
  | .binary .mul, [.floats x, .floats y], [dx, dy] =>
    fun i => dx i * y.entry i + x.entry i * dy i
  | .unary .relu, _, [dx] => fun i => if 0 < out.entry i then dx i else 0
  | .unary .sigmoid, _, [dx] => fun i => out.entry i * (1 - out.entry i) * dx i
  | .unary .tanh, _, [dx] => fun i => (1 - out.entry i * out.entry i) * dx i
  | .reshape _, _, [dx] => dx
  | .transpose perm, [x], [dx] => fun i => dx (source perm x.shape i)
  | .conv p, [.floats x, .floats f, _], [dx, df, db] => convolutionTangent p x f out.shape dx df db
  | .maxPool w, [.floats x], [dx] => poolTangent w x out.shape dx
  | .fullyConnected, [.floats x, .floats w, _], [dx, dw, db] => denseTangent x w dx dw db
  | .batchedMatMul, [.floats x, .floats y], [dx, dy] => productTangent x y dx dy
  | .batchedReduce, [x], [dx] => fun i =>
    ∑ k ∈ Finset.range (x.shape.headD 0), dx (k * out.shape.volume + i)
  | .batched .add, [_, y], [dx, dy] => fun i => dx i + dy (i % y.shape.volume)
  | .batched .mul, [.floats x, .floats y], [dx, dy] => fun i =>
    dx i * y.entry (i % y.shape.volume) + x.entry i * dy (i % y.shape.volume)
  | _, _, _ => 0

/-- The tangent of the first result of node `id`; only floats have one. -/
def Node.tangent (g : Valuation (Exact I)) (id : Nat) (tangents : List (Tangent I)) (n : Node) :
    Tangent I :=
  match n.inputs.mapM g.value?, g.value? (.node id 0) with
  | some operands, some (.floats out) => n.op.tangent operands out tangents
  | _, _ => 0

/-- The tangent of a value, from those of the storage and of the nodes so far. -/
def Value.tangent (s : Storage) (change : StorageRef → Tangent I) (nodes : List (Tangent I)) :
    Value → Tangent I
  | .storage ref => if s.isTrainableFloat ref then change ref else 0
  | .node id _ => nodes.getD id 0

/-- The tangents of all nodes, for a change of the trained storage. -/
def Function.tangents (f : Function) (s : Storage) (g : Valuation (Exact I))
    (change : StorageRef → Tangent I) : List (Tangent I) :=
  f.nodes.foldl (fun nodes n =>
    nodes ++ [n.tangent g nodes.length (n.inputs.map (Value.tangent s change nodes))]) []

/-- The gradient of a loss against the tangent of its input: the difference from what is expected,
or the probabilities less 1 at the labels. -/
def Node.loss (g : Valuation (Exact I)) (tangent : Value → Tangent I) (id : Nat) (n : Node) :
    Exact I :=
  match n.op, n.inputs, n.inputs.mapM g.value?, g.value? (.node id 0) with
  | .regression, [input, _], some [.floats x, .floats expected], _ =>
    ∑ i ∈ Finset.range x.shape.volume, (x.entry i - expected.entry i) * tangent input i
  | .softMax, [input, _], some [_, .indices labels], some (.floats out) =>
    ∑ i ∈ Finset.range out.shape.volume,
      (out.entry i - oneHot (out.shape.getD 1 0) labels.values.toList i) * tangent input i
  | _, _, _, _ => 0

/-- The sum over the losses of a function. -/
def Function.loss (f : Function) (s : Storage) (g : Valuation (Exact I))
    (change : StorageRef → Tangent I) : Exact I :=
  (f.nodes.zipIdx.map fun (n, id) =>
    n.loss g (Value.tangent s change (f.tangents s g change)) id).sum

/-- Every label of a softmax names a class of its rows. -/
def Function.LabelsInRange (f : Function) (g : Valuation (Exact I)) : Prop :=
  ∀ ⦃id : Nat⦄ ⦃n : Node⦄ ⦃input labels : Value⦄ ⦃out : Shaped (Exact I)⦄ ⦃d : Shaped Int64⦄,
    f.nodes[id]? = some n → n.op = .softMax → n.inputs = [input, labels] →
    g.value? (.node id 0) = some (.floats out) → g.value? labels = some (.indices d) →
    ∀ label ∈ d.values.toList, 0 ≤ label.toInt ∧ label.toInt < out.shape.getD 1 0

/-! ## Tangents in order -/

theorem length_scan {β γ : Type} (step : List β → γ → β) (l : List γ) :
    (l.foldl (fun acc c => acc ++ [step acc c]) []).length = l.length := by
  induction l using List.reverseRecOn with
  | nil => rfl
  | append_singleton l c ih =>
    rw [List.foldl_append, List.foldl_cons, List.foldl_nil, List.length_append, ih,
      List.length_append]
    rfl

/-- Each element is made from those before it. -/
theorem getElem?_scan {β γ : Type} (step : List β → γ → β) (l : List γ) (i : Nat) :
    (l.foldl (fun acc c => acc ++ [step acc c]) [])[i]? =
      l[i]?.map (step ((l.foldl (fun acc c => acc ++ [step acc c]) []).take i)) := by
  induction l using List.reverseRecOn with
  | nil => rfl
  | append_singleton l c ih =>
    have hlength := length_scan step l
    rw [List.foldl_append, List.foldl_cons, List.foldl_nil, getElem?_snoc, getElem?_snoc, hlength]
    by_cases hi : i = l.length
    · rw [if_pos hi, if_pos hi, List.take_append_of_le_length (by rw [hlength, hi]),
        List.take_of_length_le (by rw [hlength, hi])]
      rfl
    · rw [if_neg hi, if_neg hi, ih]
      cases hc : l[i]? with
      | none => rfl
      | some d =>
        rw [List.take_append_of_le_length
          (by rw [hlength]; exact Nat.le_of_lt (List.getElem?_eq_some_iff.1 hc).1)]

section

variable {s : Storage} {reads : StorageRef → Prop} {f : Function} {g : Valuation (Exact I)}
  {i : Nat} {n : Node} {operands results : List (Tensor (Exact I))}

theorem tangent_eq (h : SolvedNode s reads ⟨f, g⟩ i n operands results)
    (hn : f.nodes[i]? = some n) (change : StorageRef → Tangent I) (r : Nat) :
    Value.tangent s change (f.tangents s g change) (.node i r) =
      n.tangent g i (n.inputs.map (Value.tangent s change (f.tangents s g change))) := by
  have hlt := (List.getElem?_eq_some_iff.1 hn).1
  have hlength : ((f.tangents s g change).take i).length = i := by
    rw [List.length_take, Function.tangents, length_scan]
    omega
  have hinputs : n.inputs.map (Value.tangent s change ((f.tangents s g change).take i)) =
      n.inputs.map (Value.tangent s change (f.tangents s g change)) := by
    refine List.map_congr_left fun v hv => ?_
    cases v with
    | storage ref => rfl
    | node j r =>
      simp only [Value.tangent, List.getD_eq_getElem?_getD,
        List.getElem?_take_of_lt (h.earlier hv)]
  have hget : (f.tangents s g change)[i]? = some (n.tangent g i
      (n.inputs.map (Value.tangent s change (f.tangents s g change)))) := by
    rw [← hinputs]
    unfold Function.tangents at hlength ⊢
    rw [getElem?_scan, hn, Option.map_some, hlength]
  simp only [Value.tangent, List.getD_eq_getElem?_getD, hget, Option.getD_some]

/-- The tangent of a float result is its operator's. -/
theorem tangent_node (h : SolvedNode s reads ⟨f, g⟩ i n operands results)
    (hn : f.nodes[i]? = some n) {out : Shaped (Exact I)} (hout : results[0]? = some (.floats out))
    (change : StorageRef → Tangent I) (r : Nat) :
    Value.tangent s change (f.tangents s g change) (.node i r) = n.op.tangent operands out
      (n.inputs.map (Value.tangent s change (f.tangents s g change))) := by
  have hoperands : n.inputs.mapM g.value? = some operands :=
    mapM_of_forall₂ (h.inputs.imp fun _ _ hv => hv.value)
  have hvalue : g.value? (.node i 0) = some (.floats out) :=
    Option.bind_eq_some_iff.2 ⟨results, h.values, hout⟩
  rw [tangent_eq h hn]
  simp only [Node.tangent, hoperands, hvalue]

/-- A node without float results has no tangent. -/
theorem tangent_of_not_float (h : SolvedNode s reads ⟨f, g⟩ i n operands results)
    (hn : f.nodes[i]? = some n) (hout : ∀ out, results[0]? ≠ some (.floats out))
    (change : StorageRef → Tangent I) (r : Nat) :
    Value.tangent s change (f.tangents s g change) (.node i r) = 0 := by
  rw [tangent_eq h hn, Node.tangent]
  split
  · next hvalue =>
    obtain ⟨rs, hrs, h0⟩ := Option.bind_eq_some_iff.1 hvalue
    obtain rfl := Option.some.inj (h.values.symm.trans hrs)
    exact absurd h0 (hout _)
  · rfl

/-! ## Wanted gradients -/

theorem Solved.arena {w : World (Exact I)} (h : Solved s reads w) : w.function.Arena s := by
  intro i n hn
  obtain ⟨operands, results, hnode⟩ := h.node hn
  refine ⟨operands.map Tensor.type, ?_, ?_, hnode.weight, Typing.resultTypes_of_typed hnode.typed⟩
  · rw [← Function.arity_of_typed hnode.typed, List.length_map, hnode.inputs.length_eq]
  · rw [List.forall₂_map_right_iff]
    refine forall₂_of_left (List.forall₂_same.2 fun _ _ => rfl) hnode.inputs ?_
    rintro v _ t hv rfl ht
    exact Function.operandType_iff.2 ⟨ht.type, fun heq => hnode.earlier (heq ▸ hv)⟩

theorem wants_node (h : f.Arena s) (hn : f.nodes[i]? = some n) (r : Nat) :
    (Training.Source.ofFunction s f).wants (.node i r) =
      ((n.results.head?.map (·.isFloat)).getD false &&
        n.inputs.any (Training.Source.ofFunction s f).wants) := by
  let step (wanted : List Bool) (n : Node) : Bool :=
    ((n.results.head?.map (·.isFloat)).getD false) && n.inputs.any fun
      | .storage ref => s.isTrainableFloat ref
      | .node id _ => wanted.getD id false
  have hscan : Training.wantedNodes s f.nodes =
      f.nodes.foldl (fun wanted n => wanted ++ [step wanted n]) [] := rfl
  have hget : (Training.wantedNodes s f.nodes)[i]? =
      some (step ((Training.wantedNodes s f.nodes).take i) n) := by
    rw [hscan, getElem?_scan, hn, Option.map_some]
  simp only [Training.Source.wants, Training.Source.ofFunction, List.getD_eq_getElem?_getD, hget,
    Option.getD_some, step]
  congr 1
  rw [Bool.eq_iff_iff, List.any_eq_true, List.any_eq_true]
  refine exists_congr fun v => and_congr_right fun hv => ?_
  cases v with
  | storage ref => rfl
  | node j r =>
    simp only [List.getElem?_take_of_lt (h.earlier hn hv), Training.Source.wants,
      List.getD_eq_getElem?_getD]

/-- Where the first result is a float, all are. -/
theorem isFloat_of_head {op : Operator} {operands results : List TensorType}
    (h : Typing.Typed s op operands results)
    (hhead : (results.head?.map (·.isFloat)).getD false = true) :
    ∀ type ∈ results, type.isFloat = true := by
  cases h with
  | convGrad => simp [TensorType.float, TensorType.isFloat]
  | fullyConnectedGrad => simp [TensorType.float, TensorType.isFloat]
  | save | sgd => simp
  | _ => simpa using hhead

/-- A wanted value is a float. -/
theorem isFloat_of_wants (h : f.Arena s) {v : Value} {type : TensorType}
    (htype : f.valueType s v = .ok type)
    (hwants : (Training.Source.ofFunction s f).wants v = true) : type.isFloat = true := by
  cases v with
  | storage ref =>
    rw [Function.valueType_storage_ok_iff] at htype
    simp only [Training.Source.wants, Training.Source.ofFunction, Storage.isTrainableFloat,
      Bool.and_eq_true, htype] at hwants
    exact hwants.2
  | node i r =>
    obtain ⟨n, hn, hr⟩ := Function.valueType_node_ok_iff.1 htype
    obtain ⟨types, hwt⟩ := h hn
    rw [wants_node h hn, Bool.and_eq_true] at hwants
    exact isFloat_of_head hwt.typed hwants.1 type (List.mem_of_getElem? hr)

theorem floats_of_wants (h : Solved s reads ⟨f, g⟩) {v : Value} {t : Tensor (Exact I)}
    (ht : World.Holds s reads ⟨f, g⟩ v t) (hwants : (Training.Source.ofFunction s f).wants v = true) :
    ∃ d : Dense (Exact I), t = .floats d := by
  have hfloat := isFloat_of_wants h.arena ht.type hwants
  cases t with
  | floats d => exact ⟨⟨d, ht.filled⟩, rfl⟩
  | indices d => cases hfloat

/-! ## No tangent -/

theorem Operator.tangent_zero (op : Operator) (operands : List (Tensor (Exact I)))
    (out : Shaped (Exact I)) {tangents : List (Tangent I)} (h : ∀ d ∈ tangents, d = 0) :
    op.tangent operands out tangents = 0 := by
  unfold tangent
  split
  all_goals try simp only [List.mem_cons, List.not_mem_nil, or_false, forall_eq_or_imp,
    forall_eq] at h
  case h_9 => rw [h.1, h.2.1, h.2.2, convolutionTangent_zero]
  case h_10 => rw [h, poolTangent_zero]
  case h_11 => rw [h.1, h.2.1, h.2.2, denseTangent_zero]
  case h_12 => rw [h.1, h.2, productTangent_zero]
  all_goals
    funext i
    simp [h]

/-- A value whose gradient is not wanted has no tangent. -/
theorem tangent_of_unwanted (h : Solved s reads ⟨f, g⟩) (change : StorageRef → Tangent I)
    {v : Value} (hwants : (Training.Source.ofFunction s f).wants v = false) :
    Value.tangent s change (f.tangents s g change) v = 0 := by
  cases v with
  | storage ref =>
    have hno : s.isTrainableFloat ref = false := hwants
    simp [Value.tangent, hno]
  | node i r =>
    induction i using Nat.strong_induction_on generalizing r with
    | _ i ih =>
      cases hn : f.nodes[i]? with
      | none =>
        have hget : (f.tangents s g change)[i]? = none := by
          rw [Function.tangents, getElem?_scan, hn]
          rfl
        simp only [Value.tangent, List.getD_eq_getElem?_getD, hget, Option.getD_none]
      | some n =>
        obtain ⟨operands, results, hnode⟩ := h.node hn
        by_cases hout : ∃ out, results[0]? = some (.floats out)
        · obtain ⟨out, hout⟩ := hout
          have hfloat : (n.results.head?.map (·.isFloat)).getD false = true := by
            have htypes := hnode.types
            generalize n.results = types at htypes ⊢
            cases htypes with
            | nil => cases hout
            | cons htype _ =>
              obtain rfl := Option.some.inj hout
              rw [← htype]
              rfl
          rw [wants_node h.arena hn, hfloat, Bool.true_and, List.any_eq_false] at hwants
          rw [tangent_node hnode hn hout]
          refine Operator.tangent_zero _ _ _ fun d hd => ?_
          obtain ⟨v, hv, rfl⟩ := List.mem_map.1 hd
          have hunwanted : (Training.Source.ofFunction s f).wants v = false := by
            simpa using hwants v hv
          cases v with
          | storage ref =>
            have hno : s.isTrainableFloat ref = false := hunwanted
            simp [Value.tangent, hno]
          | node j r => exact ih j (hnode.earlier hv) r hunwanted
        · exact tangent_of_not_float hnode hn (fun out h0 => hout ⟨out, h0⟩) change r

end

end TensorCompiler
