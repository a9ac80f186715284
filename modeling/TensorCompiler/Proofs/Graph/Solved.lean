import TensorCompiler.Proofs.Graph.Evaluated
import TensorCompiler.Proofs.Kernel.Progress
import TensorCompiler.Proofs.Run.Compute

/-!
Values for all nodes of a function at once, over storage that stays as it is. A `World` is a function
with such values, and it is `Solved` when every node has what its operator gives on its operands.
Where no node reads storage that an earlier one has written, these are the values of the evaluation
(`solving_of_evaluate`, `Solved.evaluate`).
-/

namespace TensorCompiler

variable {α : Type}

theorem Function.valueType_node_ok_iff {s : Storage} {f : Function} {i r : Nat} {type : TensorType} :
    f.valueType s (.node i r) = .ok type ↔
      ∃ n, f.nodes[i]? = some n ∧ n.results[r]? = some type := by
  simp only [valueType, node?]
  cases hn : f.nodes[i]? with
  | none => simp
  | some n => cases hr : n.results[r]? <;> simp [hr]

/-- A function, and results for its nodes. -/
structure World (α : Type) where
  function : Function
  valuation : Valuation α

namespace World

/-- The world with one more node and its results. -/
def push (w : World α) (n : Node) (ts : List (Tensor α)) : World α :=
  ⟨w.function.push n, w.valuation.push ts⟩

/-- The value is a filled tensor of its static type; when it is storage, it is storage that may be
read. -/
structure Holds (s : Storage) (reads : StorageRef → Prop) (w : World α) (v : Value) (t : Tensor α) :
    Prop where
  value : w.valuation.value? v = some t
  type : w.function.valueType s v = .ok t.type
  filled : t.Filled
  read : ∀ {ref : StorageRef}, v = .storage ref → reads ref

/-- Every node and every result is still there, and so is what storage holds. -/
structure Extends (w w' : World α) : Prop where
  nodes : ∀ {i : Nat} {n : Node}, w.function.nodes[i]? = some n → w'.function.nodes[i]? = some n
  values : ∀ {i : Nat} {ts : List (Tensor α)}, w.valuation.values[i]? = some ts →
    w'.valuation.values[i]? = some ts
  storage : ∀ ref : StorageRef, w'.valuation.storage? ref = w.valuation.storage? ref

namespace Extends

theorem refl (w : World α) : Extends w w := ⟨id, id, fun _ => rfl⟩

theorem trans {a b c : World α} (hab : Extends a b) (hbc : Extends b c) : Extends a c :=
  ⟨hbc.nodes ∘ hab.nodes, hbc.values ∘ hab.values,
    fun ref => (hbc.storage ref).trans (hab.storage ref)⟩

theorem push (w : World α) (n : Node) (ts : List (Tensor α)) : Extends w (w.push n ts) := by
  refine ⟨fun {i m} h => ?_, fun {i m} h => ?_, fun ref => by cases ref <;> rfl⟩
  · exact (List.getElem?_append_left (List.getElem?_eq_some_iff.1 h).1).trans h
  · exact (List.getElem?_append_left (List.getElem?_eq_some_iff.1 h).1).trans h

end Extends

theorem Holds.mono {s : Storage} {reads : StorageRef → Prop} {w w' : World α} {v : Value}
    {t : Tensor α} (h : Holds s reads w v t) (hw : Extends w w') : Holds s reads w' v t := by
  refine ⟨?_, ?_, h.filled, h.read⟩
  · cases v with
    | storage ref => exact (hw.storage ref).trans h.value
    | node i r =>
      obtain ⟨ts, hts, ht⟩ := Option.bind_eq_some_iff.1 h.value
      exact Option.bind_eq_some_iff.2 ⟨ts, hw.values hts, ht⟩
  · cases v with
    | storage ref => exact h.type
    | node i r =>
      obtain ⟨n, hn, hr⟩ := Function.valueType_node_ok_iff.1 h.type
      exact Function.valueType_node_ok_iff.2 ⟨n, hw.nodes hn, hr⟩

end World

open World

/-- Node `i` has the operands, and the results that its operator gives on them. Sinks have none. -/
structure SolvedNode [Scalar α] (s : Storage) (reads : StorageRef → Prop) (w : World α) (i : Nat)
    (n : Node) (operands results : List (Tensor α)) : Prop where
  inputs : List.Forall₂ (w.Holds s reads) n.inputs operands
  earlier : ∀ {id r : Nat}, Value.node id r ∈ n.inputs → id < i
  weight : Function.hasWeight n.op n.inputs = true
  typed : Typing.Typed s n.op (operands.map Tensor.type) n.results
  values : w.valuation.values[i]? = some results
  types : List.Forall₂ (fun t type => t.type = type) results n.results
  filled : ∀ t ∈ results, t.Filled
  computes : n.op.isSink = false →
    n.op.compute n.results operands = some (results.map Tensor.payload)

/-- Every node has its results. -/
structure Solved [Scalar α] (s : Storage) (reads : StorageRef → Prop) (w : World α) : Prop where
  length : w.valuation.values.length = w.function.nodes.length
  node : ∀ {i : Nat} {n : Node}, w.function.nodes[i]? = some n →
    ∃ operands results, SolvedNode s reads w i n operands results

variable [Scalar α] {s : Storage} {reads : StorageRef → Prop} {w : World α}

theorem SolvedNode.operands_filled {i : Nat} {n : Node} {operands results : List (Tensor α)}
    (h : SolvedNode s reads w i n operands results) : ∀ t ∈ operands, t.Filled := by
  intro t ht
  obtain ⟨v, -, hv⟩ := exists_left_of_forall₂ h.inputs ht
  exact hv.filled

theorem SolvedNode.mono {w' : World α} {i : Nat} {n : Node} {operands results : List (Tensor α)}
    (h : SolvedNode s reads w i n operands results) (hw : Extends w w') :
    SolvedNode s reads w' i n operands results :=
  { h with
    inputs := h.inputs.imp fun _ _ hv => hv.mono hw
    values := hw.values h.values }

/-- A result of a node. -/
theorem SolvedNode.holds {i r : Nat} {n : Node} {operands results : List (Tensor α)} {t : Tensor α}
    (h : SolvedNode s reads w i n operands results) (hn : w.function.nodes[i]? = some n)
    (ht : results[r]? = some t) : w.Holds s reads (.node i r) t := by
  obtain ⟨hr, rfl⟩ := List.getElem?_eq_some_iff.1 ht
  have hlt : r < n.results.length := h.types.length_eq ▸ hr
  have htype : results[r].type = n.results[r] := h.types.get hr hlt
  exact ⟨Option.bind_eq_some_iff.2 ⟨results, h.values, ht⟩, Function.valueType_node_ok_iff.2
    ⟨n, hn, htype ▸ List.getElem?_eq_getElem hlt⟩, h.filled _ (List.getElem_mem hr), nofun⟩

/-- A node more, with operands in the world and the results its operator gives on them. -/
theorem Solved.push (h : Solved s reads w) {n : Node} {operands results : List (Tensor α)}
    (hinputs : List.Forall₂ (w.Holds s reads) n.inputs operands)
    (hweight : Function.hasWeight n.op n.inputs = true)
    (htyped : Typing.Typed s n.op (operands.map Tensor.type) n.results)
    (htypes : List.Forall₂ (fun t type => t.type = type) results n.results)
    (hfilled : ∀ t ∈ results, t.Filled)
    (hcomputes : n.op.isSink = false →
      n.op.compute n.results operands = some (results.map Tensor.payload)) :
    Solved s reads (w.push n results) ∧
      SolvedNode s reads (w.push n results) w.function.size n operands results := by
  have hnew : SolvedNode s reads (w.push n results) w.function.size n operands results := by
    refine ⟨hinputs.imp fun _ _ hv => hv.mono (Extends.push ..), fun {id r} hmem => ?_, hweight,
      htyped, ?_, htypes, hfilled, hcomputes⟩
    · obtain ⟨t, -, ht⟩ := exists_right_of_forall₂ hinputs hmem
      obtain ⟨ts, hts, -⟩ := Option.bind_eq_some_iff.1 ht.value
      exact Nat.lt_of_lt_of_eq (List.getElem?_eq_some_iff.1 hts).1 h.length
    · simp only [World.push, Valuation.push, getElem?_snoc, h.length, Function.size, if_true]
  refine ⟨⟨?_, fun {i m} hm => ?_⟩, hnew⟩
  · simp [World.push, Valuation.push, h.length]
  · simp only [World.push, Function.nodes_push, getElem?_snoc] at hm
    split at hm
    · next hi =>
      obtain rfl := Option.some.inj hm
      exact ⟨operands, results, hi ▸ hnew⟩
    · obtain ⟨ops, rs, hnode⟩ := h.node hm
      exact ⟨ops, rs, hnode.mono (Extends.push ..)⟩

/-- The values do not depend on the use-lists. -/
theorem Solved.of_nodes (h : Solved s reads w) {f : Function}
    (hnodes : f.nodes = w.function.nodes) : Solved s reads ⟨f, w.valuation⟩ := by
  have hmore : Extends w ⟨f, w.valuation⟩ := ⟨fun hn => by rwa [hnodes], id, fun _ => rfl⟩
  refine ⟨by rw [hnodes, h.length], fun {i n} hn => ?_⟩
  obtain ⟨operands, results, hnode⟩ := h.node (hnodes ▸ hn)
  exact ⟨operands, results, hnode.mono hmore⟩

/-! ## From an evaluation -/

/-- Some node has the storage as an operand. -/
def Function.Reads (f : Function) (ref : StorageRef) : Prop :=
  ∃ n ∈ f.nodes, Value.storage ref ∈ n.inputs

theorem Function.mem_storageRefs {f : Function} {ref : StorageRef} :
    ref ∈ f.storageRefs ↔ ref ∈ f.nodes.flatMap Node.storageRefs := by
  rw [Function.storageRefs, List.mem_mergeSort, List.mem_eraseDups]

/-- Every storage that the function names holds a tensor of its declared type. -/
def Function.Supplied (f : Function) (s : Storage) (g : Valuation α) : Prop :=
  ∀ ref ∈ f.storageRefs, ∃ t, g.storage? ref = some t ∧ s.type? ref = some t.type

/-- Every storage that the function names holds a filled tensor of its declared type. -/
def Function.Ready (f : Function) (s : Storage) (g : Valuation α) : Prop :=
  ∀ ref ∈ f.storageRefs, ∃ t, g.storage? ref = some t ∧ s.type? ref = some t.type ∧ t.Filled

/-- Reshapes of storage that is not written show what they have shown. -/
theorem Function.reshapesStable_of_unread {f : Function}
    (h : ∀ n ∈ f.nodes, ∀ ref, Function.Writes n ref → ¬ f.Reads ref) : f.ReshapesStable := by
  intro i j k ref writer reader _ _ hshows hwriter hwrites _ _
  have hreads {v w : Value} (hchain : f.Shows v w) (hw : w = .storage ref) (hv : v ≠ w) :
      f.Reads ref := by
    induction hchain with
    | self => exact absurd rfl hv
    | @reshape id n shape v w hn hop hin hchain ih =>
      by_cases heq : v = w
      · exact ⟨n, List.mem_of_getElem? hn, by simp [hin, heq, hw]⟩
      · exact ih hw heq
  exact h writer (List.mem_of_getElem? hwriter) ref hwrites (hreads hshows rfl nofun)

omit [Scalar α] in
theorem filled_of_fills {types : List TensorType} {ts : List (Tensor α)}
    (htypes : List.Forall₂ (fun t type => t.type = type) ts types)
    (hfills : List.Forall₂ Payload.Fills types (ts.map Tensor.payload)) : ∀ t ∈ ts, t.Filled := by
  induction htypes with
  | nil => simp
  | cons htype _ ih =>
    obtain ⟨hfirst, hrest⟩ := List.forall₂_cons.1 hfills
    refine List.forall_mem_cons.2 ⟨?_, ih hrest⟩
    rw [Tensor.Filled, htype]
    exact hfirst.2

/-- An evaluation from `start` that has visited the nodes `done` of a function. -/
structure Solving (s : Storage) (f : Function) (start : Valuation α) (done : List Node)
    (g : Valuation α) : Prop where
  evaluated : Evaluated s f done.length g
  storage : ∀ ref, f.Reads ref → g.storage? ref = start.storage? ref
  filled : ∀ ref t, f.Reads ref → start.storage? ref = some t → t.Filled
  solved : Solved s f.Reads ⟨{ f with nodes := done }, { start with values := g.values }⟩

namespace Solving

variable {f : Function} {start g : Valuation α} {done rest : List Node} {n : Node}

/-- The operands of the next node, as values over the storage at the start. -/
theorem inputs (h : Solving s f start done g) (hnodes : done ++ n :: rest = f.nodes)
    {operands : List (Tensor α)}
    (hvalues : List.Forall₂ (fun v t => g.value? v = some t ∧
      Function.OperandType s f done.length v t.type) n.inputs operands) :
    List.Forall₂ (World.Holds s f.Reads
      ⟨{ f with nodes := done }, { start with values := g.values }⟩) n.inputs operands := by
  have hmem : n ∈ f.nodes := hnodes ▸ List.mem_append_right _ List.mem_cons_self
  refine forall₂_of_left (List.forall₂_same.2 fun _ _ => rfl) hvalues ?_
  rintro v _ t hv rfl ⟨ht, htype⟩
  cases v with
  | storage ref =>
    have hread : f.Reads ref := ⟨n, hmem, hv⟩
    have hstart := (h.storage ref hread).symm.trans ht
    refine ⟨hstart, ?_, h.filled ref t hread hstart, fun heq => ?_⟩
    · have htype : s.type? ref = some t.type := htype
      simp only [Function.valueType, htype]
    · cases heq
      exact hread
  | node i r =>
    obtain ⟨hi, m, hm, hr⟩ := htype
    rw [← hnodes, List.getElem?_append_left hi] at hm
    obtain ⟨_, results, hnode⟩ := h.solved.node hm
    obtain ⟨ts, hts, ht⟩ := Option.bind_eq_some_iff.1 ht
    obtain rfl := Option.some.inj (hts.symm.trans hnode.values)
    exact hnode.holds hm ht

/-- One visit. -/
theorem step [Scalar.Rowwise α] (h : Solving s f start done g) (hnodes : done ++ n :: rest = f.nodes)
    (hverify : f.verify s = .ok ()) (hsgd : ∀ n ∈ f.nodes, ∀ p, n.op ≠ .sgd p)
    (hunread : ∀ n ∈ f.nodes, ∀ ref, Function.Writes n ref → ¬ f.Reads ref) {g' : Valuation α}
    (hstep : g.step n = some g') : Solving s f start (done ++ [n]) g' := by
  have hn : f.nodes[done.length]? = some n := by simp [← hnodes]
  have hmem := List.mem_of_getElem? hn
  obtain ⟨types, hwt⟩ := Function.wellTyped_of_verify hverify hn
  have hevaluated := h.evaluated.step (Function.reshapesStable_of_unread hunread) hn hwt hstep
  have htyped := Typing.typed_of_resultTypes hwt.results
  have htypes {ts : List (Tensor α)}
      (hts : List.Forall₂ (fun (t : Tensor α) type => t.type = type) ts types) :
      Typing.Typed s n.op (ts.map Tensor.type) n.results := by
    have heq := List.forall₂_map_left_iff.2 hts
    rw [List.forall₂_eq_eq_eq] at heq
    exact heq ▸ htyped
  by_cases hsave : ∃ ref, n.op = .save ref
  · obtain ⟨ref, hop⟩ := hsave
    obtain ⟨ts, -, hvalues, hts⟩ := h.evaluated.exists_operands hn hwt
    obtain ⟨v, x, -, hresults, -, -, -, heq⟩ := h.evaluated.step_save hn hwt hop
    obtain rfl := Option.some.inj (heq.symm.trans hstep)
    have hkept : (g.store x ref).values = g.values := by cases ref <;> rfl
    refine ⟨by simpa using hevaluated, fun ref' hread => ?_, h.filled, ?_⟩
    · rw [← h.storage ref' hread]
      exact Valuation.storage?_store_ne g x fun heq => hunread n hmem ref (.inl hop) (heq ▸ hread)
    · have hpush := (h.solved.push (h.inputs hnodes hvalues) hwt.weight (htypes hts)
        (hresults ▸ .nil : List.Forall₂ _ [] _) (by simp) (by simp [hop, Operator.isSink])).1
      simpa only [World.push, Valuation.push, hkept] using
        hpush.of_nodes (f := { f with nodes := done ++ [n] }) rfl
  · obtain ⟨ts, hvalues, hts, heq⟩ := h.evaluated.step_compute hn hwt
      (fun ref hop => hsave ⟨ref, hop⟩) (hsgd n hmem)
    obtain ⟨ps, hcompute, hstep⟩ := Option.bind_eq_some_iff.1 (heq.symm.trans hstep)
    obtain ⟨rs, hrs, rfl⟩ := Option.map_eq_some_iff.1 hstep
    obtain ⟨hresults, hpayloads⟩ := tensors_spec hrs
    have hinputs := h.inputs hnodes hvalues
    have hoperands : ∀ t ∈ ts, t.Filled := fun t ht => by
      obtain ⟨v, -, hv⟩ := exists_left_of_forall₂ hinputs ht
      exact hv.filled
    have hfilled := filled_of_fills hresults
      (hpayloads ▸ Operator.compute_fills (htypes hts) rfl hoperands hcompute)
    exact ⟨by simpa using hevaluated, fun ref hread => (h.storage ref hread : _), h.filled,
      (h.solved.push hinputs hwt.weight (htypes hts) hresults hfilled
        fun _ => by rw [hcompute, hpayloads]).1.of_nodes rfl⟩

end Solving

omit [Scalar α] in
/-- An evaluation starts with no values. -/
theorem evaluated_of_ready {f : Function} {vars : List (Tensor α)} {bindings : IdMap (Tensor α)}
    {momentum : Nat → Option (Tensor α)} (hready : f.Ready s ⟨vars, bindings, momentum, []⟩) :
    Evaluated s f 0 ⟨vars, bindings, momentum, []⟩ := by
  refine ⟨rfl, fun hi => absurd hi (Nat.not_lt_zero _), fun {ref type} href htype => ?_,
    fun hi => absurd hi (Nat.not_lt_zero _)⟩
  obtain ⟨t, ht, htype', -⟩ := hready ref (Function.mem_storageRefs.2 href)
  exact ⟨t, ht, Option.some.inj (htype'.symm.trans htype)⟩

/-- An evaluation has solved no nodes at its start. -/
theorem solving_of_ready {f : Function} {vars : List (Tensor α)} {bindings : IdMap (Tensor α)}
    {momentum : Nat → Option (Tensor α)} (hready : f.Ready s ⟨vars, bindings, momentum, []⟩) :
    Solving s f ⟨vars, bindings, momentum, []⟩ [] ⟨vars, bindings, momentum, []⟩ := by
  refine ⟨evaluated_of_ready hready, fun _ _ => rfl, fun ref t hread ht => ?_, rfl,
    fun hn => nomatch hn⟩
  obtain ⟨n, hn, hv⟩ := hread
  obtain ⟨t', ht', -, hfilled⟩ := hready ref (Function.mem_storageRefs.2
    (List.mem_flatMap.2 ⟨n, hn, Node.mem_storageRefs_of_read hv⟩))
  rwa [Option.some.inj (ht.symm.trans ht')]

/-- An evaluation that succeeds has visited all nodes. -/
theorem solving_of_evaluate [Scalar.Rowwise α] {f : Function} {vars : List (Tensor α)}
    {bindings : IdMap (Tensor α)} {momentum : Nat → Option (Tensor α)} {g : Valuation α}
    (hverify : f.verify s = .ok ())
    (hsgd : ∀ n ∈ f.nodes, ∀ p, n.op ≠ .sgd p)
    (hunread : ∀ n ∈ f.nodes, ∀ ref, Function.Writes n ref → ¬ f.Reads ref)
    (hready : f.Ready s ⟨vars, bindings, momentum, []⟩)
    (heval : f.evaluate vars bindings momentum = (.ok (), g)) :
    Solving s f ⟨vars, bindings, momentum, []⟩ f.nodes g := by
  have hvisit (rest done : List Node) (h : Valuation α) (hnodes : done ++ rest = f.nodes)
      (hsolving : Solving s f ⟨vars, bindings, momentum, []⟩ done h)
      (hrest : h.visit rest = (.ok (), g)) :
      Solving s f ⟨vars, bindings, momentum, []⟩ f.nodes g := by
    induction rest generalizing done h with
    | nil =>
      obtain ⟨-, rfl⟩ := Prod.mk.inj hrest
      rwa [← hnodes, List.append_nil]
    | cons n rest ih =>
      simp only [Valuation.visit] at hrest
      cases hstep : h.step n with
      | none => simp [hstep] at hrest
      | some h' =>
        rw [hstep] at hrest
        exact ih (done ++ [n]) h' (by simp [hnodes])
          (hsolving.step hnodes hverify hsgd hunread hstep) hrest
  exact hvisit f.nodes [] _ rfl (solving_of_ready hready) heval

/-! ## To an evaluation -/

omit [Scalar α] in
theorem tensors_payloads {types : List TensorType} {ts : List (Tensor α)}
    (h : List.Forall₂ (fun t type => t.type = type) ts types) :
    tensors types (ts.map Tensor.payload) = some ts := by
  induction h with
  | nil => rfl
  | @cons t type ts types htype _ ih =>
    have hfirst : Tensor.ofPayload type t.payload = .ok t := Tensor.ofPayload_eq_ok.2 ⟨htype, rfl⟩
    simp [tensors, hfirst, ih, Except.toOption]

theorem mapM_of_forall₂ {β γ : Type} {f : β → Option γ} {bs : List β} {cs : List γ}
    (h : List.Forall₂ (fun b c => f b = some c) bs cs) : bs.mapM f = some cs := by
  induction h with
  | nil => rfl
  | cons hb _ ih => simp [List.mapM_cons, hb, ih]

/-- A step of descent succeeds when its three tensors are filled and have one type. -/
theorem exists_descended (p : Descent) {w x m : Tensor α} {shape : Shape}
    (hw : w.type = .float shape) (hx : x.type = .float shape) (hm : m.type = .float shape)
    (hwfilled : w.Filled) (hxfilled : x.Filled) (hmfilled : m.Filled) :
    ∃ r, Valuation.descended p w x m = some r := by
  obtain ⟨w, rfl, hwshape⟩ := exists_filled_floats hw hwfilled
  obtain ⟨x, rfl, hxshape⟩ := exists_filled_floats hx hxfilled
  obtain ⟨m, rfl, hmshape⟩ := exists_filled_floats hm hmfilled
  have hread : Tensor.ofPayload (Tensor.floats (w : Shaped α)).type
      (Tensor.floats (m : Shaped α)).payload = .ok (.floats m) :=
    Tensor.ofPayload_eq_ok.2 ⟨hm.trans hw.symm, rfl⟩
  have hsizes : ¬ (w.values.size ≠ x.values.size ∨ w.values.size ≠ m.values.size) := by
    rw [w.size_eq, x.size_eq, m.size_eq, hwshape, hxshape, hmshape]
    simp
  have hpayloads := Lowering.descended_payloads p (.floats w.toShaped) (.floats x) (.floats m)
  rw [hread] at hpayloads
  simp only [Tensor.floats?, Kernel.descent, if_neg hsizes, Except.toOption, Option.bind_eq_bind,
    Option.bind_some] at hpayloads
  obtain ⟨r, hr, -⟩ := Option.map_eq_some_iff.1 hpayloads
  exact ⟨r, hr⟩

/-- A step over a node adds its results and changes only the storage that it writes and its own
momentum. -/
structure Valuation.Advances (g g' : Valuation α) (n : Node) (results : List (Tensor α)) : Prop where
  values : g'.values = g.values ++ [results]
  storage : ∀ ref, ¬ Function.Writes n ref → g'.storage? ref = g.storage? ref
  momentum : ∀ j, j ≠ g.values.length → g'.momentum j = g.momentum j

section Step

variable {i : Nat} {n : Node} {operands results : List (Tensor α)} {g : Valuation α}

theorem SolvedNode.step_save (h : SolvedNode s reads w i n operands results)
    (hoperands : n.inputs.mapM g.value? = some operands) {ref : StorageRef} (hop : n.op = .save ref) :
    ∃ g', g.step n = some g' ∧ g.Advances g' n results := by
  have htyped := h.typed
  have htypes := h.types
  rw [hop] at htyped
  generalize hts : operands.map Tensor.type = ts at htyped
  generalize n.results = types at htyped htypes
  cases htyped
  cases htypes
  obtain ⟨x, rfl, -⟩ := List.map_eq_singleton_iff.1 hts
  refine ⟨(g.store x ref).push [], ?_, by cases ref <;> rfl, fun ref' hno => ?_,
    fun j _ => by cases ref <;> rfl⟩
  · simp only [Valuation.step, hoperands, hop]
    rfl
  · exact Valuation.storage?_store_ne g x fun heq => hno (.inl (heq ▸ hop))

/-- A step of descent needs its momentum, of the type of its weight. -/
theorem SolvedNode.step_descent (h : SolvedNode s reads w i n operands results)
    (hoperands : n.inputs.mapM g.value? = some operands) {p : Descent} (hop : n.op = .sgd p)
    (hmomentum : ∀ v ref, n.inputs = [v, .storage ref] →
      ∃ m, g.momentum g.values.length = some m ∧ s.type? ref = some m.type ∧ m.Filled) :
    ∃ g', g.step n = some g' ∧ g.Advances g' n results := by
  have htyped := h.typed
  have htypes := h.types
  have hweight := h.weight
  rw [hop] at htyped hweight
  generalize hts : operands.map Tensor.type = ts at htyped
  generalize n.results = types at htyped htypes
  cases htyped with
  | sgd _ shape =>
    cases htypes
    obtain ⟨x, rest, rfl, hx, hrest⟩ := List.map_eq_cons_iff.1 hts
    obtain ⟨weight, rfl, hw⟩ := List.map_eq_singleton_iff.1 hrest
    obtain ⟨v, v', hin, hv, hv'⟩ := inputs_two h.inputs
    cases v' with
    | node i r => simp [hin, Function.hasWeight, Value.storage?] at hweight
    | storage ref =>
      obtain ⟨m, hm, htype, hmfilled⟩ := hmomentum v ref hin
      have hmtype : m.type = .float shape := by
        have hweighted := hv'.type
        simp only [Function.valueType, htype, Except.ok.injEq] at hweighted
        exact hweighted.trans hw
      obtain ⟨⟨w', m'⟩, hdescended⟩ :=
        exists_descended p hw hx hmtype hv'.filled hv.filled hmfilled
      refine ⟨{ g.store w' ref with momentum := fun j =>
        if j = g.values.length then some m' else g.momentum j }.push [], ?_, by cases ref <;> rfl,
        fun ref' hno => ?_, fun j hj => if_neg hj⟩
      · rw [hin] at hoperands
        simp only [Valuation.step, hop, hin, hoperands, hm, hdescended, Option.bind_eq_bind,
          Option.bind_some]
        cases ref <;> rfl
      · exact Valuation.storage?_store_ne g w' fun heq =>
          hno (.inr ⟨p, hop, by rw [hin, heq]; rfl⟩)

theorem SolvedNode.step_compute (h : SolvedNode s reads w i n operands results)
    (hoperands : n.inputs.mapM g.value? = some operands) (hsave : ∀ ref, n.op ≠ .save ref)
    (hsgd : ∀ p, n.op ≠ .sgd p) : ∃ g', g.step n = some g' ∧ g.Advances g' n results := by
  have hsink : n.op.isSink = false := by
    cases hop : n.op <;> simp [Operator.isSink, hop] at hsave hsgd ⊢
  refine ⟨g.push results, ?_, rfl, fun _ _ => rfl, fun _ _ => rfl⟩
  unfold Valuation.step
  rw [hoperands]
  simp only [Option.bind_eq_bind, Option.bind_some]
  split
  · next hop => exact absurd hop (hsave _)
  · next hop _ => exact absurd hop (hsgd _)
  · rw [h.computes hsink, Option.bind_some, tensors_payloads h.types]
    rfl

/-- The visit of a solved node. -/
theorem SolvedNode.step (h : SolvedNode s reads w i n operands results)
    (hoperands : n.inputs.mapM g.value? = some operands)
    (hmomentum : ∀ p v ref, n.op = .sgd p → n.inputs = [v, .storage ref] →
      ∃ m, g.momentum g.values.length = some m ∧ s.type? ref = some m.type ∧ m.Filled) :
    ∃ g', g.step n = some g' ∧ g.Advances g' n results := by
  by_cases hsave : ∃ ref, n.op = .save ref
  · obtain ⟨ref, hop⟩ := hsave
    exact h.step_save hoperands hop
  by_cases hsgd : ∃ p, n.op = .sgd p
  · obtain ⟨p, hop⟩ := hsgd
    exact h.step_descent hoperands hop fun v ref => hmomentum p v ref hop
  exact h.step_compute hoperands (not_exists.1 hsave) (not_exists.1 hsgd)

end Step

/-- No storage is read after it has been written. -/
def Function.WritesUnread (f : Function) : Prop :=
  f.nodes.Pairwise fun m n => ∀ ref, Function.Writes m ref → Value.storage ref ∉ n.inputs

/-- A filled momentum for every step of descent, of the type of its weight. -/
def Function.HasMomentum (f : Function) (s : Storage) (momentum : Nat → Option (Tensor α)) : Prop :=
  ∀ i n p v ref, f.nodes[i]? = some n → n.op = .sgd p → n.inputs = [v, .storage ref] →
    ∃ m, momentum i = some m ∧ s.type? ref = some m.type ∧ m.Filled

/-- The weight and the gradient of a step of descent. -/
def Node.handed (g : Valuation α) (n : Node) : Option (StorageRef × Tensor α) :=
  match n.op, n.inputs with
  | .sgd _, [v, .storage ref] => (g.value? v).map (ref, ·)
  | _, _ => none

omit [Scalar α] in
theorem Node.handed_eq_none {g : Valuation α} {n : Node}
    (h : ∀ p v ref, n.op = .sgd p → n.inputs ≠ [v, .storage ref]) : n.handed g = none := by
  unfold handed
  split
  · next hop hin => exact absurd hin (h _ _ _ hop)
  · rfl

/-- The weights that a function descends on, each with the gradient its node is handed. -/
def Function.handed (f : Function) (g : Valuation α) : List (StorageRef × Tensor α) :=
  f.nodes.filterMap (Node.handed g)

/-- Nodes that are there already are handed what they have been. -/
theorem Solved.handed_append (h : Solved s reads w) {w' : World α} (hw : Extends w w')
    {new : List Node} (hnodes : w'.function.nodes = w.function.nodes ++ new) :
    w'.function.handed w'.valuation =
      w.function.handed w.valuation ++ new.filterMap (Node.handed w'.valuation) := by
  rw [Function.handed, hnodes, List.filterMap_append, Function.handed]
  congr 1
  refine List.filterMap_congr fun n hn => ?_
  obtain ⟨i, hn⟩ := List.mem_iff_getElem?.1 hn
  obtain ⟨operands, results, hnode⟩ := h.node hn
  unfold Node.handed
  split
  · next v ref _ hin =>
    obtain ⟨t, -, ht⟩ := exists_right_of_forall₂ hnode.inputs (show v ∈ n.inputs by simp [hin])
    rw [ht.value, (ht.mono hw).value]
  · rfl

/-- An evaluation that has come past the nodes `done` of a world has their values and has written
nothing else; the momentum of later nodes is as it was. -/
structure World.Replays (w : World α) (momentum : Nat → Option (Tensor α)) (done : List Node)
    (g : Valuation α) : Prop where
  values : g.values = w.valuation.values.take done.length
  storage : ∀ ref, (∀ m ∈ done, ¬ Function.Writes m ref) →
    g.storage? ref = w.valuation.storage? ref
  momentum : ∀ j, done.length ≤ j → g.momentum j = momentum j

section Replays

variable {momentum : Nat → Option (Tensor α)} {done rest : List Node} {n : Node} {g : Valuation α}
  {operands results : List (Tensor α)}

omit [Scalar α] in
theorem World.Replays.length (hr : w.Replays momentum done g)
    (hdone : done.length ≤ w.valuation.values.length) : g.values.length = done.length := by
  rw [hr.values, List.length_take, Nat.min_eq_left hdone]

/-- The next node has its operands from earlier nodes, and from storage that none of them has
written. -/
theorem World.Replays.inputs (hr : w.Replays momentum done g)
    (hnode : SolvedNode s reads w done.length n operands results)
    (hunwritten : ∀ ref, Value.storage ref ∈ n.inputs → ∀ m ∈ done, ¬ Function.Writes m ref) :
    n.inputs.mapM g.value? = some operands := by
  refine mapM_of_forall₂ (forall₂_of_left (List.forall₂_same.2 fun _ _ => rfl) hnode.inputs ?_)
  rintro v _ t hv rfl ht
  rw [← ht.value]
  cases v with
  | node i r =>
    rw [Valuation.value?, hr.values, List.getElem?_take_of_lt (hnode.earlier hv)]
    rfl
  | storage ref => exact hr.storage ref (hunwritten ref hv)

omit [Scalar α] in
theorem World.Replays.snoc (hr : w.Replays momentum done g) {g' : Valuation α}
    (hstep : g.Advances g' n results) (hresults : w.valuation.values[done.length]? = some results) :
    w.Replays momentum (done ++ [n]) g' := by
  obtain ⟨hlt, hget⟩ := List.getElem?_eq_some_iff.1 hresults
  have hlength := hr.length (Nat.le_of_lt hlt)
  refine ⟨?_, fun ref hno => ?_, fun j hj => ?_⟩
  · rw [hstep.values, hr.values, List.length_append, List.length_singleton,
      List.take_succ_eq_append_getElem hlt, hget]
  · rw [hstep.storage ref (hno n (by simp)), hr.storage ref fun m hm => hno m (by simp [hm])]
  · rw [List.length_append, List.length_singleton] at hj
    rw [hstep.momentum j (by omega), hr.momentum j (by omega)]

theorem Solved.visit (h : Solved s reads w) (hunread : w.function.WritesUnread)
    (hmomentum : w.function.HasMomentum s momentum) (hnodes : done ++ rest = w.function.nodes)
    (hr : w.Replays momentum done g) :
    ∃ g', g.visit rest = (.ok (), g') ∧ g'.values = w.valuation.values := by
  induction rest generalizing done g with
  | nil =>
    refine ⟨g, rfl, hr.values.trans (List.take_of_length_le (Nat.le_of_eq ?_))⟩
    rw [h.length, ← hnodes, List.append_nil]
  | cons n rest ih =>
    have hn : w.function.nodes[done.length]? = some n := by simp [← hnodes]
    obtain ⟨operands, results, hnode⟩ := h.node hn
    have hlength := hr.length (Nat.le_of_lt (List.getElem?_eq_some_iff.1 hnode.values).1)
    have hoperands := hr.inputs hnode fun ref hread m hm hwrites => by
      have hpair := hunread
      rw [Function.WritesUnread, ← hnodes, List.pairwise_append] at hpair
      exact hpair.2.2 m hm n List.mem_cons_self ref hwrites hread
    obtain ⟨g', hstep, hadvances⟩ := hnode.step hoperands fun p v ref hop hin => by
      rw [hlength, hr.momentum _ (Nat.le_refl _)]
      exact hmomentum _ n p v ref hn hop hin
    simp only [Valuation.visit, hstep]
    exact ih (by simp [hnodes]) (hr.snoc hadvances hnode.values)

/-- The evaluation of a solved function has its values. -/
theorem Solved.evaluate (h : Solved s reads w) (hunread : w.function.WritesUnread)
    (hmomentum : w.function.HasMomentum s momentum) :
    ∃ g, w.function.evaluate w.valuation.vars w.valuation.bindings momentum = (.ok (), g) ∧
      g.values = w.valuation.values :=
  h.visit hunread hmomentum (List.nil_append _)
    ⟨rfl, fun ref _ => by cases ref <;> rfl, fun _ _ => rfl⟩

end Replays

end TensorCompiler
