import TensorCompiler.Proofs.Graph.Elimination
import TensorCompiler.Proofs.Graph.Typing
import TensorCompiler.Proofs.Names

/-!
Functions in which every node is well typed, as they are while they are built. Appending a node that
the typing rules accept keeps that (`Arena.append`), and so does the elimination of dead nodes, after
which every node has a reader too: the function passes verification (`Arena.verify_eliminateDead`).
-/

namespace TensorCompiler.Function

variable {s : Storage} {f g : Function}

/-- Every node reads results of earlier nodes, or storage, and has the types that follow. -/
def Arena (s : Storage) (f : Function) : Prop :=
  ∀ ⦃i : Nat⦄ ⦃n : Node⦄, f.nodes[i]? = some n → ∃ types, WellTyped s f i n types

theorem arena_of_verify (h : f.verify s = .ok ()) : f.Arena s :=
  fun _ _ hn => wellTyped_of_verify h hn

/-! ## More nodes -/

/-- `g` has the nodes of `f` and then some that are no sinks. -/
abbrev Grows (f g : Function) : Prop :=
  ∃ new, g.nodes = f.nodes ++ new ∧ ∀ n ∈ new, n.op.isSink = false

theorem Grows.refl (f : Function) : Grows f f := ⟨[], by simp, nofun⟩

theorem Grows.trans {f₁ f₂ f₃ : Function} (h : Grows f₁ f₂) (h' : Grows f₂ f₃) : Grows f₁ f₃ := by
  obtain ⟨new, hnodes, hnew⟩ := h
  obtain ⟨new', hnodes', hnew'⟩ := h'
  refine ⟨new ++ new', by rw [hnodes', hnodes, List.append_assoc], fun n hn => ?_⟩
  exact (List.mem_append.1 hn).elim (hnew n) (hnew' n)

theorem Grows.nodes {f g : Function} (h : Grows f g) : f.nodes <+: g.nodes := by
  obtain ⟨new, hnodes, -⟩ := h
  exact ⟨new, hnodes.symm⟩

theorem getElem?_of_nodes (h : f.nodes <+: g.nodes) {i : Nat} {n : Node}
    (hn : f.nodes[i]? = some n) : g.nodes[i]? = some n := by
  obtain ⟨new, hnew⟩ := h
  rw [← hnew, List.getElem?_append_left (List.getElem?_eq_some_iff.1 hn).1, hn]

theorem OperandType.mono (h : f.nodes <+: g.nodes) {i : Nat} {v : Value} {type : TensorType}
    (ht : OperandType s f i v type) : OperandType s g i v type := by
  cases v with
  | storage ref => exact ht
  | node j r =>
    obtain ⟨hj, n, hn, hr⟩ := ht
    exact ⟨hj, n, getElem?_of_nodes h hn, hr⟩

theorem WellTyped.mono (h : f.nodes <+: g.nodes) {i : Nat} {n : Node} {types : List TensorType}
    (hn : WellTyped s f i n types) : WellTyped s g i n types :=
  { hn with operands := hn.operands.imp fun _ _ ht => ht.mono h }

theorem Arena.rename (h : f.Arena s) (name : String) : Arena s { f with name } := by
  intro i n hn
  obtain ⟨types, hwt⟩ := h hn
  exact ⟨types, WellTyped.mono (f := f) (g := { f with name }) (List.prefix_refl f.nodes) hwt⟩

theorem valueType_mono (h : f.nodes <+: g.nodes) {v : Value} {type : TensorType}
    (ht : f.valueType s v = .ok type) : g.valueType s v = .ok type := by
  cases v with
  | storage ref => exact ht
  | node i r =>
    obtain ⟨n, hn, hr⟩ := valueType_node_ok_iff.1 ht
    exact valueType_node_ok_iff.2 ⟨n, getElem?_of_nodes h hn, hr⟩

theorem valueType_storage_ok_iff {ref : StorageRef} {type : TensorType} :
    f.valueType s (.storage ref) = .ok type ↔ s.type? ref = some type := by
  simp only [valueType]
  cases s.type? ref <;> simp

theorem operandType_iff {i : Nat} {v : Value} {type : TensorType} : OperandType s f i v type ↔
    f.valueType s v = .ok type ∧ ∀ {j r : Nat}, v = .node j r → j < i := by
  cases v with
  | storage ref =>
    rw [valueType_storage_ok_iff]
    exact ⟨fun h => ⟨h, nofun⟩, And.left⟩
  | node j r =>
    rw [valueType_node_ok_iff]
    constructor
    · rintro ⟨hj, hn⟩
      exact ⟨hn, fun heq => (Value.node.inj heq).1 ▸ hj⟩
    · rintro ⟨hn, hj⟩
      exact ⟨hj rfl, hn⟩

/-- A typed operand is storage or a result of a node that is there. -/
theorem lt_size_of_valueType {i r : Nat} {type : TensorType}
    (h : f.valueType s (.node i r) = .ok type) : i < f.size := by
  obtain ⟨n, hn, -⟩ := valueType_node_ok_iff.1 h
  exact (List.getElem?_eq_some_iff.1 hn).1

/-- The types of a node's operands and results fit its operator. -/
theorem WellTyped.typed {i : Nat} {n : Node} {types : List TensorType}
    (h : WellTyped s f i n types) : Typing.Typed s n.op types n.results :=
  Typing.typed_of_resultTypes h.results

theorem arity_of_typed {op : Operator} {types results : List TensorType}
    (h : Typing.Typed s op types results) : types.length = op.arity := by
  cases h <;> rfl

/-- A node is appended when its operands have types that its operator takes. -/
theorem append_total {op : Operator} {inputs : List Value} {types results : List TensorType}
    (name : String) (hinputs : List.Forall₂ (fun v type => f.valueType s v = .ok type) inputs types)
    (hweight : hasWeight op inputs = true) (htyped : Typing.Typed s op types results) :
    ∃ n : Node, n.op = op ∧ n.inputs = inputs ∧ n.results = results ∧
      f.append s name op inputs = .ok (f.push n) := by
  refine ⟨⟨Names.fresh f.nodeNames name, op, inputs, results⟩, rfl, rfl, rfl, ?_⟩
  refine bind_ok_iff.2 ⟨types, mapM_ok_iff.2 hinputs, ?_⟩
  simp [hweight, Typing.resultTypes_of_typed htyped, Except.mapError]

/-- Only such a node is appended, under the name that it is given. -/
theorem append_ok {name : String} {op : Operator} {inputs : List Value}
    (h : f.append s name op inputs = .ok g) :
    ∃ types n, List.Forall₂ (fun v type => f.valueType s v = .ok type) inputs types ∧
      n.op = op ∧ n.inputs = inputs ∧ hasWeight op inputs = true ∧
      Typing.Typed s op types n.results ∧ Names.Given f.nodeNames name n.name ∧ g = f.push n := by
  unfold append at h
  simp only [bind_ok_iff, ite_ok_iff, throw_ok_iff, false_and, and_false, exists_false, false_or,
    mapError_ok_iff, pure_ok_iff] at h
  obtain ⟨types, htypes, hweight, results, hresults, rfl⟩ := h
  exact ⟨types, ⟨_, op, inputs, results⟩, mapM_ok_iff.1 htypes, rfl, rfl, by simpa using hweight,
    Typing.typed_of_resultTypes hresults, Names.fresh_given _ _, rfl⟩

/-- The new node is well typed, and the others stay so. -/
theorem Arena.append (h : f.Arena s) {n : Node} {types : List TensorType}
    (hinputs : List.Forall₂ (fun v type => f.valueType s v = .ok type) n.inputs types)
    (hweight : hasWeight n.op n.inputs = true) (htyped : Typing.Typed s n.op types n.results) :
    (f.push n).Arena s := by
  have hmore : f.nodes <+: (f.nodes ++ [n]) := List.prefix_append ..
  intro i m hm
  rw [nodes_push, getElem?_snoc] at hm
  split at hm
  · next hi =>
    obtain rfl := Option.some.inj hm
    refine ⟨types, ?_, ?_, hweight, Typing.resultTypes_of_typed htyped⟩
    · rw [hinputs.length_eq, arity_of_typed htyped]
    · refine hinputs.imp fun v type ht => ?_
      refine operandType_iff.2 ⟨valueType_mono hmore ht, fun heq => ?_⟩
      rw [hi]
      exact lt_size_of_valueType (heq ▸ ht)
  · obtain ⟨types', hwt⟩ := h hm
    exact ⟨types', hwt.mono hmore⟩

/-! ## Fewer nodes -/

/-- Operands of an arena stand before the nodes that read them. -/
theorem Arena.earlier (h : f.Arena s) {i : Nat} {n : Node} (hn : f.nodes[i]? = some n) {j r : Nat}
    (hv : Value.node j r ∈ n.inputs) : j < i := by
  obtain ⟨types, hwt⟩ := h hn
  obtain ⟨type, -, htype⟩ := exists_right_of_forall₂ hwt.operands hv
  exact htype.1

theorem Arena.readsEarlier (h : f.Arena s) : f.ReadsEarlier := by
  intro i n hn p hp
  obtain ⟨r, hv⟩ := Node.mem_producers.1 hp
  exact h.earlier hn hv

theorem Arena.producer_live (h : f.Arena s) {i : Nat} {n : Node} (hn : f.nodes[i]? = some n)
    (hlive : i ∈ f.live) {p : Nat} (hp : p ∈ n.producers) : p ∈ f.live :=
  h.readsEarlier.producer_live hn hlive hp

theorem OperandType.eliminateDead {i : Nat} {v : Value} {type : TensorType}
    (h : OperandType s f i v type) (hlive : ∀ {p : Nat}, v.producer? = some p → p ∈ f.live) :
    OperandType s f.eliminateDead (newNumber f.live i) (v.renumber (newNumber f.live)) type := by
  cases v with
  | storage ref => exact h
  | node j r =>
    obtain ⟨hj, n, hn, hr⟩ := h
    exact ⟨countP_range_lt hj (by simpa using hlive rfl), _,
      getElem?_nodes_eliminateDead.2 ⟨j, n, hn, hlive rfl, rfl, rfl⟩, hr⟩

theorem hasWeight_renumber {op : Operator} {inputs : List Value} (number : Nat → Nat)
    (h : hasWeight op inputs = true) : hasWeight op (inputs.map (.renumber number)) = true := by
  cases op with
  | sgd p =>
    simp only [hasWeight, List.getElem?_map] at h ⊢
    cases hin : inputs[1]? with
    | none => simp [hin] at h
    | some v => cases v <;> simp_all [Value.renumber, Value.storage?]
  | _ => rfl

theorem WellTyped.eliminateDead {i : Nat} {n : Node} {types : List TensorType}
    (h : WellTyped s f i n types) (hlive : ∀ p ∈ n.producers, p ∈ f.live) :
    WellTyped s f.eliminateDead (newNumber f.live i) (n.renumber (newNumber f.live)) types := by
  refine ⟨(List.length_map ..).trans h.arity, ?_, hasWeight_renumber _ h.weight, h.results⟩
  rw [Node.renumber, List.forall₂_map_left_iff]
  refine forall₂_of_left (List.forall₂_same.2 fun _ _ => rfl) h.operands ?_
  rintro v _ type hv rfl ht
  exact ht.eliminateDead fun hp => hlive _ (List.mem_filterMap.2 ⟨v, hv, hp⟩)

theorem Arena.eliminateDead (h : f.Arena s) : f.eliminateDead.Arena s := by
  intro j m hm
  obtain ⟨i, n, hn, hlive, rfl, rfl⟩ := getElem?_nodes_eliminateDead.1 hm
  obtain ⟨types, hwt⟩ := h hn
  exact ⟨types, hwt.eliminateDead fun p hp => h.producer_live hn hlive hp⟩

theorem checkNode_of_wellTyped {i : Nat} {n : Node} {types : List TensorType}
    (h : WellTyped s f i n types) : f.checkNode s i n = .ok () := by
  have hoperands : n.inputs.mapM (f.operandType s i) = .ok types :=
    mapM_ok_iff.2 (h.operands.imp fun _ _ => operandType_ok_iff.2)
  have hdestination (ref : StorageRef) (hd : n.destination? = some ref) : s.contains ref = true := by
    have htyped := h.typed
    unfold Node.destination? at hd
    split at hd
    · next hop =>
      obtain rfl := Option.some.inj hd
      rw [hop] at htyped
      generalize n.results = results at htyped
      cases htyped with
      | save _ x hx => simp [Storage.contains, hx]
    · cases hd
  unfold checkNode
  simp only [bind_ok_iff, throw_ok_iff, ite_ok_iff, false_and, and_false, exists_false, false_or]
  refine ⟨by simpa using h.arity, types, hoperands, by simpa using h.weight, ?_⟩
  cases hd : n.destination? with
  | none => simp [h.results, Except.mapError]
  | some ref => simp [hdestination ref hd, h.results, Except.mapError]

/-- Operands that have a type belong to the function. -/
theorem producers_lt_size {n : Node} {types : List TensorType}
    (h : List.Forall₂ (fun v type => f.valueType s v = .ok type) n.inputs types) :
    ∀ p ∈ n.producers, p < f.size := by
  intro p hp
  obtain ⟨r, hv⟩ := Node.mem_producers.1 hp
  obtain ⟨type, -, htype⟩ := exists_right_of_forall₂ h hv
  exact lt_size_of_valueType htype

/-! ## Verification -/

/-- A well-typed function with its readers on its use-lists is accepted when all but its sinks are
read. -/
theorem Arena.verify_of_readers (h : f.Arena s) (hlinked : f.Linked)
    (hread : ∀ ⦃i : Nat⦄ ⦃n : Node⦄, f.nodes[i]? = some n → n.op.isSink = true ∨
      ∃ (j : Nat) (m : Node), f.nodes[j]? = some m ∧ i ∈ m.producers) : f.verify s = .ok () := by
  refine verify_ok_iff.2 ⟨fun ⟨n, i⟩ hx => ?_, fun ⟨n, i⟩ hx => ?_⟩
  · obtain ⟨types, hwt⟩ := h (List.mem_zipIdx_iff_getElem?.1 hx)
    exact checkNode_of_wellTyped hwt
  · have hn := List.mem_zipIdx_iff_getElem?.1 hx
    have hperm := hlinked i (List.getElem?_eq_some_iff.1 hn).1
    refine checkUsed_ok_iff.2 ⟨hperm, (hread hn).imp_right fun ⟨j, m, hm, hp⟩ => ?_⟩
    exact List.ne_nil_of_mem (hperm.mem_iff.2 (mem_readers.2 ⟨m, hm, hp⟩))

/-- Without its dead nodes, a well-typed function passes verification. -/
theorem Arena.verify_eliminateDead (h : f.Arena s) (hlinked : f.Linked) :
    f.eliminateDead.verify s = .ok () := by
  refine h.eliminateDead.verify_of_readers (hlinked.eliminateDead h.readsEarlier) fun j m hm => ?_
  obtain ⟨i, n, hn, hlive, rfl, rfl⟩ := getElem?_nodes_eliminateDead.1 hm
  rcases reader_of_mark _ hlive with ⟨n', hn', hsink⟩ | ⟨r, k, hr, hk, hp⟩
  · obtain rfl := Option.some.inj ((List.mem_zipIdx_iff_getElem?.1 hn').symm.trans hn)
    exact .inl hsink
  · right
    refine ⟨_, _, getElem?_nodes_eliminateDead.2
      ⟨k, r, List.mem_zipIdx_iff_getElem?.1 hr, hk, rfl, rfl⟩, ?_⟩
    obtain ⟨q, hv⟩ := Node.mem_producers.1 hp
    exact Node.mem_producers.2 ⟨q, List.mem_map.2 ⟨_, hv, rfl⟩⟩

/-- The nodes of an accepted function stay live when more are added. -/
theorem live_of_verify (hverify : f.verify s = .ok ()) (hmore : f.nodes <+: g.nodes)
    (hg : g.Arena s) {i : Nat} (hi : i < f.size) : i ∈ g.live := by
  -- by induction from the last node back: what reads a node stands after it
  induction hk : f.size - i using Nat.strongRecOn generalizing i with
  | ind k ih =>
    have hn : f.nodes[i]? = some f.nodes[i] := List.getElem?_eq_getElem hi
    by_cases hsink : f.nodes[i].op.isSink = true
    · exact sink_mem_mark (List.mem_zipIdx_iff_getElem?.2 (getElem?_of_nodes hmore hn)) hsink
    · obtain ⟨j, r, m, hm, hread⟩ := reader_of_verify hverify hn (by simpa using hsink)
      have hij := (arena_of_verify hverify).earlier hm hread
      have hj : j < f.size := (List.getElem?_eq_some_iff.1 hm).1
      exact hg.producer_live (getElem?_of_nodes hmore hm) (ih _ (by omega) hj rfl)
        (Node.mem_producers.2 ⟨r, hread⟩)

end TensorCompiler.Function
