import TensorCompiler.Proofs.Graph.UseLists

/-!
What verification establishes of a function. `Function.WellTyped` collects the facts about one
node: its operands are results of earlier nodes or storage, and its recorded types follow from
theirs. `wellTyped_of_verify`, `linked_of_verify` and `reader_of_verify` read off an accepted function
that its nodes are well typed, its use-lists name the readers, and all but the sinks are read.
-/

namespace TensorCompiler.Function

variable {s : Storage} {f : Function}

/-- The static type of an operand of node `id`: the recorded type of an earlier result, or the
declared type of storage. -/
def OperandType (s : Storage) (f : Function) (id : Nat) : Value → TensorType → Prop
  | .node producer result, type =>
    producer < id ∧ ∃ n, f.nodes[producer]? = some n ∧ n.results[result]? = some type
  | .storage ref, type => s.type? ref = some type

theorem operandType_ok_iff {id : Nat} {v : Value} {type : TensorType} :
    f.operandType s id v = .ok type ↔ OperandType s f id v type := by
  cases v with
  | node producer result =>
    simp only [operandType, OperandType, node?]
    by_cases hlt : id ≤ producer
    · simp [hlt, Nat.not_lt.2 hlt]
    · cases hn : f.nodes[producer]? with
      | none => simp [hlt]
      | some n =>
        cases ht : n.results[result]? with
        | none => simp [hlt, ht]
        | some t => simp [hlt, ht, Nat.lt_of_not_le hlt]
  | storage ref =>
    simp only [operandType, OperandType]
    cases s.type? ref <;> simp

/-- What verification establishes of node `id`, whose operands have the given types. -/
structure WellTyped (s : Storage) (f : Function) (id : Nat) (n : Node) (types : List TensorType) :
    Prop where
  arity : n.inputs.length = n.op.arity
  operands : List.Forall₂ (OperandType s f id) n.inputs types
  weight : hasWeight n.op n.inputs = true
  results : Typing.resultTypes s n.op types = .ok n.results

theorem wellTyped_of_checkNode {id : Nat} {n : Node} (h : f.checkNode s id n = .ok ()) :
    ∃ types, WellTyped s f id n types := by
  unfold checkNode at h
  simp only [bind_ok_iff, throw_ok_iff, ite_ok_iff, false_and, and_false, exists_false,
    false_or] at h
  obtain ⟨harity, types, htypes, hweight, h⟩ := h
  refine ⟨types, by simpa using harity, ?_, by simpa using hweight, ?_⟩
  · exact (mapM_ok_iff.1 htypes).imp fun _ _ => operandType_ok_iff.1
  · cases hd : n.destination? with
    | none => simp_all [ite_ok_iff]
    | some ref => simp_all [ite_ok_iff]

theorem verify_ok_iff : f.verify s = .ok () ↔
    (∀ x ∈ f.nodes.zipIdx, f.checkNode s x.2 x.1 = .ok ()) ∧
      ∀ x ∈ f.nodes.zipIdx, f.checkUsed x.2 x.1 = .ok () := by
  simp [verify, forM_ok_iff]

/-- Every node of an accepted function is well typed. -/
theorem wellTyped_of_verify (h : f.verify s = .ok ()) {id : Nat} {n : Node}
    (hn : f.nodes[id]? = some n) : ∃ types, WellTyped s f id n types :=
  wellTyped_of_checkNode ((verify_ok_iff.1 h).1 (n, id) (List.mem_zipIdx_iff_getElem?.2 hn))

theorem checkUsed_ok_iff {id : Nat} {n : Node} : f.checkUsed id n = .ok () ↔
    (f.users id).Perm (f.readers id) ∧ (n.op.isSink = true ∨ f.users id ≠ []) := by
  rw [← List.isPerm_iff]
  unfold checkUsed
  cases n.op.isSink <;> simp [ite_ok_iff]

/-- The use-lists of an accepted function name the readers. -/
theorem linked_of_verify (h : f.verify s = .ok ()) : f.Linked := by
  intro id hid
  have hn : f.nodes[id]? = some f.nodes[id] := List.getElem?_eq_getElem hid
  have hused := (verify_ok_iff.1 h).2 (f.nodes[id], id) (List.mem_zipIdx_iff_getElem?.2 hn)
  exact (checkUsed_ok_iff.1 hused).1

/-- A node that is no sink is read by a node. -/
theorem reader_of_verify (h : f.verify s = .ok ()) {id : Nat} {n : Node}
    (hn : f.nodes[id]? = some n) (hsink : n.op.isSink = false) :
    ∃ (j r : Nat) (m : Node), f.nodes[j]? = some m ∧ Value.node id r ∈ m.inputs := by
  have hused := (verify_ok_iff.1 h).2 (n, id) (List.mem_zipIdx_iff_getElem?.2 hn)
  obtain ⟨hperm, hsink' | husers⟩ := checkUsed_ok_iff.1 hused
  · simp [hsink] at hsink'
  · obtain ⟨j, hj⟩ := List.exists_mem_of_ne_nil _ husers
    obtain ⟨m, hm, hmem⟩ := mem_readers.1 (hperm.mem_iff.1 hj)
    obtain ⟨r, hv⟩ := Node.mem_producers.1 hmem
    exact ⟨j, r, m, hm, hv⟩

end TensorCompiler.Function
