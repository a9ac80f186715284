import TensorCompiler.Proofs.Run.Engine

/-!
What the typing rules accept and what the interpreter runs. The instruction of a node whose operands
kernels take succeeds on tensors of the operands' types, empty ones included, and leaves tensors of the
inferred types; on the other operands it fails and stores nothing (`Lowering.execute_accepted`).
-/

namespace TensorCompiler

/-- The buffers that an instruction fills or updates. -/
def Instruction.destinations (i : Instruction) : List Nat :=
  (i.operands.filter (·.access ≠ .read)).map (·.buffer)

theorem Instruction.destinations_ofBuffers (code : Opcode) (dsts srcs : List Nat) :
    (Instruction.ofBuffers code dsts srcs).destinations = dsts := by
  simp [destinations, ofBuffers, List.filter_map, Function.comp_def]

/-- The types of what the instruction of a node fills: a save has the type of its operand, a step of
descent that of its weight, twice. -/
def Operator.filled : Operator → List TensorType → List TensorType → List TensorType
  | .save _, [x], _ => [x]
  | .sgd _, [_, weight], _ => [weight, weight]
  | _, _, results => results

namespace Lowering

open TensorCompiler.Lowering.Stream TensorCompiler.Instruction

variable {s : Storage} {f : Function} {reuse : Bool} {st : Stream} {a : Artifact}
  {j : Nat} {n : Node} {types : List TensorType} {x : Instruction}

/-- The destinations of a node's instruction have the types that inference gives them. -/
theorem typeOf_destinations (h : Lowered s f reuse st a) (hn : f.nodes[j]? = some n)
    (hwt : Function.WellTyped s f j n types) (he : st.Emits j n x) :
    List.Forall₂ (fun b type => a.typeOf b = .ok type) x.destinations
      (n.op.filled types n.results) := by
  have htyped := hwt.typed
  have hoperands := hwt.operands
  cases he with
  | @view shape v src dst hop hin hsrc hdst =>
    rw [hop] at htyped ⊢
    rw [destinations_ofBuffers]
    generalize hresults : n.results = results at htyped
    cases htyped with
    | reshape type _ hvolume =>
      have hresult : Function.OperandType s f (j + 1) (.node j 0) ⟨type.kind, shape⟩ :=
        ⟨j.lt_succ_self, n, hn, by rw [hresults]; rfl⟩
      exact .cons (typeOf_operand h hdst hresult) .nil
  | @save ref v src dst hop hin hsrc hdst =>
    rw [hop] at htyped ⊢
    rw [destinations_ofBuffers]
    generalize n.results = results at htyped
    cases htyped with
    | save _ type href =>
      exact .cons (typeOf_operand h (v := .storage ref) (j := j) hdst href) .nil
  | @descent p g ref gradient weight state name d hop hin hg hweight hd hstate =>
    rw [hop] at htyped ⊢
    rw [hin] at hoperands
    generalize n.results = results at htyped
    cases htyped with
    | sgd _ shape =>
      have hwtype := typeOf_operand h hweight (List.forall₂_cons.1 (List.forall₂_cons.1 hoperands).2).1
      have hdtype : d.type = .float shape := by
        rw [h.typeOf_eq, hd] at hwtype
        exact Except.ok.inj hwtype
      exact .cons hwtype (.cons (by rw [h.typeOf_eq, hstate, ← hdtype]) .nil)
  | @compute code srcs dsts hop hsrcs hlen hdsts =>
    have hfilled : n.op.filled types n.results = n.results := by
      cases hn : n.op <;> simp [hn, opcode?] at hop <;> rfl
    rw [hfilled, destinations_ofBuffers]
    exact (destinations h hn hop hlen hdsts).1

/-- Operands of a node that have types are of the types that verification has found. -/
theorem wellTyped_of_types (h : Lowered s f reuse st a) (hn : f.nodes[j]? = some n)
    (htypes : List.Forall₂ (fun v type => f.valueType s v = .ok type) n.inputs types) :
    Function.WellTyped s f j n types := by
  obtain ⟨types', hwt⟩ := Function.wellTyped_of_verify h.verified hn
  obtain rfl : types' = types := List.right_unique_forall₂'
    (fun _ _ _ h h' => Except.ok.inj (h.symm.trans h'))
    (hwt.operands.imp fun _ _ hv => (Function.operandType_iff.1 hv).1) htypes
  exact hwt

variable {α : Type} [Scalar α] {m : Memory α}

/-- A dense layer with a bias of indices and a batched operator on empty slices have no effects. -/
theorem effects_unsupported (h : Lowered s f reuse st a) (hm : m.Typed a)
    (hn : f.nodes[j]? = some n) (hwt : Function.WellTyped s f j n types) (he : st.Emits j n x)
    (hsupports : n.op.supports types = false) :
    ∃ fault, x.effects a m = .error fault ∧
      ((n.op = .fullyConnected ∧ ∃ b, fault = .notFloat b) ∨
        (∃ op, n.op = .batched op) ∧ fault = .kernel .sliceTiling) := by
  cases he with
  | view hop => simp [hop, Operator.supports] at hsupports
  | save hop => simp [hop, Operator.supports] at hsupports
  | descent hop => simp [hop, Operator.supports] at hsupports
  | @compute code srcs dsts hop hsrcs hlen hdsts =>
    obtain ⟨ts, hreads, hts, hfilled⟩ := compute_reads h hm hwt hsrcs
    have hdtypes := (destinations h hn hop hlen hdsts).1
    have htyped := hwt.typed
    generalize n.results = results at htyped hdtypes
    generalize n.op = op at hop htyped hsupports ⊢
    cases htyped with
    | fullyConnected k d depth ds bias =>
      obtain rfl := Option.some.inj hop
      obtain ⟨x, w, t, rfl, -, -, ht, -⟩ := floats_three hts hfilled
      obtain ⟨bx, bw, bb, rfl, hx, hw, hb⟩ := inputs_three hreads
      obtain ⟨dst, rfl, -⟩ := inputs_one hdtypes
      obtain rfl : bias = .index := by
        cases bias with
        | float => cases hsupports
        | index => rfl
      obtain ⟨b, rfl, -⟩ := exists_indices ht
      refine ⟨.notFloat bb, ?_, .inl ⟨rfl, bb, rfl⟩⟩
      simp only [Instruction.effects, Instruction.ofBuffers, Instruction.buffers, read,
        List.map_cons, List.map_nil, List.cons_append, List.nil_append, Memory.readFloats, hx, hw, hb]
      rfl
    | batched op k ds =>
      obtain rfl := Option.some.inj hop
      obtain ⟨x, y, rfl, -, hshape⟩ := floats_two hts hfilled
      obtain ⟨bx, bs, rfl, hx, hs⟩ := inputs_two hreads
      obtain ⟨dst, rfl, -⟩ := inputs_one hdtypes
      have hempty : y.values.size = 0 := by
        rw [y.size_eq, hshape]
        exact not_not.1 (of_decide_eq_false hsupports)
      refine ⟨.kernel .sliceTiling, ?_, .inr ⟨⟨op, rfl⟩, rfl⟩⟩
      have hkernel : Kernel.batched op (x : Shaped α) y = .error .sliceTiling := if_pos (.inl hempty)
      simp only [Instruction.effects, Instruction.ofBuffers, Instruction.buffers, read,
        List.map_cons, List.map_nil, List.cons_append, List.nil_append, Memory.readFloats, hx, hs]
      simp only [bind, Except.bind, pure, Except.pure, hkernel]
      rfl
    | _ => cases hsupports

/-- The instruction of a node whose operands kernels refuse fails, and stores nothing. -/
theorem fails_of_unsupported (h : Lowered s f reuse st a) (hn : f.nodes[j]? = some n)
    (hwt : Function.WellTyped s f j n types) (he : st.Emits j n x)
    (hsupports : n.op.supports types = false) (hm : m.Typed a) :
    ∃ fault, x.execute a m = (.error ⟨some x, fault⟩, m) ∧
      ((n.op = .fullyConnected ∧ ∃ b, fault = .notFloat b) ∨
        (∃ op, n.op = .batched op) ∧ fault = .kernel .sliceTiling) := by
  obtain ⟨fault, heffects, hfault⟩ := effects_unsupported h hm hn hwt he hsupports
  exact ⟨fault, by rw [execute, heffects]; rfl, hfault⟩

variable [Scalar.Rowwise α]

/-- A node computes its results on all tensors that kernels take. -/
theorem computes_of_supports (hwt : Function.WellTyped s f j n types)
    (hsupports : n.op.supports types = true) : Computes α n types :=
  fun hsink hgrad _ hts hfilled => Operator.compute_total hwt.typed hts hfilled hsink hsupports
    fun _ _ hop => absurd hop hgrad

/-- The instruction of a node whose operands kernels take succeeds, unless it refuses a label. -/
theorem runs_of_supports (h : Lowered s f reuse st a) (hn : f.nodes[j]? = some n)
    (hwt : Function.WellTyped s f j n types) (he : st.Emits j n x)
    (hsupports : n.op.supports types = true) (hm : m.Typed a)
    (hlabels : n.op = .softMaxGrad → ∀ label width, ¬ x.Refuses a m label width) :
    ∃ m', x.execute a m = (.ok (), m') ∧ m'.Typed a ∧
      List.Forall₂ (fun b type => ∃ t, m'.read a b = .ok t ∧ t.type = type ∧ t.Filled)
        x.destinations (n.op.filled types n.results) := by
  obtain ⟨ws, hws, hfit, -⟩ | ⟨label, width, hrefuses, -⟩ :=
    effects_total h hm hn hwt (computes_of_supports hwt hsupports) he
  · obtain ⟨m', hcommit, hm'⟩ := commit_total hm hfit
    exact ⟨m', execute_ok_iff.2 ⟨ws, hws, hcommit⟩, hm',
      (typeOf_destinations h hn hwt he).imp fun b type htype => read_of_typeOf hm' htype⟩
  · exact absurd hrefuses (hlabels (he.softMaxGrad hrefuses.1) label width)

end Lowering

/-! ## Every application -/

/-- The storage with a placeholder more for each type. -/
def Storage.withPlaceholders (s : Storage) (types : List TensorType) : Storage :=
  { s with placeholders := s.placeholders ++ types.map fun type => ⟨"", type, false⟩ }

theorem Storage.type?_withPlaceholders {s : Storage} {ref : StorageRef} {type : TensorType}
    (h : s.type? ref = some type) (types : List TensorType) :
    (s.withPlaceholders types).type? ref = some type := by
  cases ref with
  | var id => exact h
  | placeholder id =>
    obtain ⟨p, hp, rfl⟩ := Option.map_eq_some_iff.1 h
    have hlt := (List.getElem?_eq_some_iff.1 hp).1
    simp only [type?, withPlaceholders, List.getElem?_append_left hlt, hp, Option.map_some]

theorem Storage.type?_placeholder_add (s : Storage) (types : List TensorType) (i : Nat) :
    (s.withPlaceholders types).type? (.placeholder (s.placeholders.length + i)) = types[i]? := by
  simp [type?, withPlaceholders, List.getElem?_append_right, Function.comp_def]

/-- A function that applies an operator to placeholders from the given one on, and saves the first of
its results, if it has any, to the placeholder after them. -/
def Function.applying (op : Operator) (first : Nat) (types results : List TensorType) : Function where
  name := ""
  nodes :=
    ⟨"", op, (List.range types.length).map fun i => .storage (.placeholder (first + i)), results⟩ ::
      results.head?.toList.map fun _ =>
        ⟨"", .save (.placeholder (first + types.length)), [.node 0 0], []⟩

namespace Function

variable {s : Storage} {op : Operator} {types results : List TensorType}

/-- The node that applies an operator to placeholders. -/
theorem wellTyped_applying (htyped : Typing.Typed s op types results) {n : Node}
    (hn : (applying op s.placeholders.length types results).nodes[0]? = some n) :
    WellTyped (s.withPlaceholders (types ++ results))
      (applying op s.placeholders.length types results) 0 n types := by
  obtain rfl := Option.some.inj hn
  have hmore : Typing.Typed (s.withPlaceholders (types ++ results)) op types results := by
    cases htyped with
    | save ref x hx => exact .save ref x (Storage.type?_withPlaceholders hx _)
    | _ => constructor <;> assumption
  refine ⟨?_, ?_, ?_, Typing.resultTypes_of_typed hmore⟩
  · simpa using arity_of_typed htyped
  · refine List.forall₂_iff_get.2 ⟨by simp, fun i hi hi' => ?_⟩
    simp only [List.get_eq_getElem, List.getElem_map, List.getElem_range]
    refine (Storage.type?_placeholder_add ..).trans ?_
    rw [List.getElem?_append_left hi', List.getElem?_eq_getElem hi']
  · cases htyped <;> rfl

theorem arena_applying (htyped : Typing.Typed s op types results) :
    (applying op s.placeholders.length types results).Arena
      (s.withPlaceholders (types ++ results)) := by
  rintro (_ | i) n hn
  · exact ⟨types, wellTyped_applying htyped hn⟩
  · cases results with
    | nil => cases hn
    | cons type results =>
      cases i with
      | succ i => cases hn
      | zero =>
        obtain rfl := Option.some.inj hn
        have hsaved : (s.withPlaceholders (types ++ type :: results)).type?
            (.placeholder (s.placeholders.length + types.length)) = some type := by
          simp [Storage.type?_placeholder_add]
        exact ⟨[type], rfl, .cons ⟨Nat.one_pos, _, rfl, rfl⟩ .nil, rfl,
          Typing.resultTypes_of_typed (.save _ type hsaved)⟩

theorem verify_applying (htyped : Typing.Typed s op types results) :
    (applying op s.placeholders.length types results).verify
      (s.withPlaceholders (types ++ results)) = .ok () := by
  have harena := arena_applying htyped
  refine harena.verify_of_readers (wired_ofNodes harena.readsEarlier).linked ?_
  rintro (_ | i) n hn
  · obtain rfl := Option.some.inj hn
    cases results with
    | nil => exact .inl (by cases htyped <;> rfl)
    | cons type results => exact .inr ⟨1, _, rfl, List.mem_singleton_self 0⟩
  · cases results with
    | nil => cases hn
    | cons type results =>
      cases i with
      | succ i => cases hn
      | zero =>
        obtain rfl := Option.some.inj hn
        exact .inl rfl

theorem resultBytes_applying (op : Operator) (first : Nat) (types results : List TensorType) :
    Lowering.resultBytes (applying op first types results) =
      (results.map fun type => type.volume * type.kind.bytes).sum := by
  cases results <;> simp [Lowering.resultBytes, applying]

/-- The function saves a result, and its arithmetic is otherwise that of the operator. -/
theorem fits_applying (htyped : Typing.Typed s op types results)
    (hfits : op.fits types results = true) :
    (applying op s.placeholders.length types results).Fits
      (s.withPlaceholders (types ++ results)) := by
  have hshape {type : TensorType} (htype : type ∈ types ++ results) : type.shape.Fits :=
    of_decide_eq_true (List.all_eq_true.1 (Bool.and_eq_true_iff.1 hfits).1 type htype)
  intro n hn found hfound
  obtain ⟨i, hi⟩ := List.mem_iff_getElem?.1 hn
  cases i with
  | zero =>
    have hoperands := (wellTyped_applying htyped hi).operands
    obtain rfl : types = found := List.right_unique_forall₂'
      (fun _ _ _ h h' => Except.ok.inj (h.symm.trans h'))
      (hoperands.imp fun _ _ hv => (operandType_iff.1 hv).1) hfound
    obtain rfl := Option.some.inj hi
    exact hfits
  | succ i =>
    cases results with
    | nil => cases hi
    | cons type results =>
      cases i with
      | succ i => cases hi
      | zero =>
        obtain rfl := Option.some.inj hi
        obtain ⟨type', _, hsaved, hnil, rfl⟩ := List.forall₂_cons_left_iff.1 hfound
        obtain rfl := List.forall₂_nil_left_iff.1 hnil
        obtain rfl : type = type' := Except.ok.inj hsaved
        have hfits : type.shape.Fits := hshape (List.mem_append_right _ List.mem_cons_self)
        simp [Operator.fits, hfits]

end Function

namespace Lowering

open TensorCompiler.Lowering.Stream TensorCompiler.Instruction

variable {s : Storage} {f : Function} {reuse : Bool} {st : Stream} {a : Artifact}
  {types results : List TensorType} {α : Type}

/-- Tensors of the types of all variables and of all placeholders are what a function asks for. -/
theorem Lowered.supplied_of_types (h : Lowered s f reuse st a) {vars contents : List (Tensor α)}
    (hvars : vars.map Tensor.type = s.vars.map (·.payload.type))
    (hcontents : contents.map Tensor.type = s.placeholders.map (·.type)) :
    f.Supplied s ⟨vars, .ofList (contents.zipIdx.map fun x => (x.2, x.1)), fun _ => none, []⟩ := by
  intro ref href
  obtain ⟨b, hb⟩ := (h.describes.seen_iff ref).2 (Function.mem_storageRefs.1 href)
  obtain ⟨name, type, -, htype, -⟩ := h.describes.weight hb
  rw [htype]
  have hfound {l : List (Tensor α)} {id : Nat} (hl : (l.map Tensor.type)[id]? = some type) :
      ∃ t, l[id]? = some t ∧ some type = some t.type := by
    rw [List.getElem?_map, Option.map_eq_some_iff] at hl
    obtain ⟨t, ht, rfl⟩ := hl
    exact ⟨t, ht, rfl⟩
  cases ref with
  | var id =>
    refine hfound ?_
    rw [hvars, List.getElem?_map]
    exact htype
  | placeholder id =>
    have hcontent : (contents.map Tensor.type)[id]? = some type := by
      rw [hcontents, List.getElem?_map]
      exact htype
    obtain ⟨t, ht, heq⟩ := hfound hcontent
    exact ⟨t, IdMap.get?_ofList_zipIdx ht, heq⟩

variable [Scalar α]

/-- What the typing rules accept is lowered, if a word counts the bytes of the results, and a typed memory
can hold any operands of the types. -/
theorem exists_application {op : Operator}
    (haccepts : Typing.resultTypes s op types = .ok results) (hfits : op.fits types results = true)
    (hbytes : (results.map fun type => type.volume * type.kind.bytes).sum < Word.size)
    {ts : List (Tensor α)} (hts : ts.map Tensor.type = types) : ∃ (a : Artifact) (m : Memory α),
      (Function.applying op s.placeholders.length types results).lower
        (s.withPlaceholders (types ++ results)) true = .ok a ∧ m.Typed a ∧
      ∀ i < types.length, m.get? (.placeholder (s.placeholders.length + i)) = ts[i]? := by
  have htyped := Typing.typed_of_resultTypes haccepts
  have hverify := Function.verify_applying htyped
  obtain ⟨a, hlower⟩ :=
    exists_lower_of_results hverify true (Function.resultBytes_applying .. ▸ hbytes)
  obtain ⟨st, -, h, -⟩ := lowered_of_lower hlower
  -- all of the storage has tensors of its types, and the operands are the given ones
  let vars : List (Tensor α) := s.vars.map fun v => .zeros v.payload.type
  let contents : List (Tensor α) :=
    s.placeholders.map (fun p => .zeros p.type) ++ (ts ++ results.map .zeros)
  let bindings : IdMap (Tensor α) := .ofList (contents.zipIdx.map fun x => (x.2, x.1))
  let state : IdMap (Tensor α) := .ofList (a.stateBuffers.map fun b => (b.id, .zeros b.type))
  have hvars : vars.map Tensor.type =
      (s.withPlaceholders (types ++ results)).vars.map (·.payload.type) := by
    simp [vars, Storage.withPlaceholders, Tensor.type_zeros, Function.comp_def]
  have hcontents : contents.map Tensor.type =
      (s.withPlaceholders (types ++ results)).placeholders.map (·.type) := by
    simp [contents, Storage.withPlaceholders, hts, Tensor.type_zeros, Function.comp_def]
  have hstate : ∀ d ∈ a.stateBuffers, ∃ t, state.get? d.id = some t ∧ t.type = d.type :=
    fun d hd => ⟨.zeros d.type, IdMap.get?_ofList_map _ (fun d : Buffer => Tensor.zeros d.type)
      (Engine.state_distinct h) hd, Tensor.type_zeros _⟩
  refine ⟨a, .start a vars bindings state, hlower,
    h.typed_of_fits (Function.fits_applying htyped hfits)
      (h.start_located (h.supplied_of_types hvars hcontents) hstate), fun i hi => ?_⟩
  have hi : i < ts.length := by simpa [← hts] using hi
  have hcontent : contents[s.placeholders.length + i]? = some ts[i] := by
    rw [List.getElem?_append_right (by simp), List.getElem?_append_left (by simpa using hi)]
    simp
  rw [List.getElem?_eq_getElem hi]
  exact IdMap.get?_ofList_zipIdx hcontent

variable [Scalar.Rowwise α] {j : Nat} {n : Node}

/-- What the typing rules accept is run, with two exceptions. Take a node of a lowered function, whose
operand types the rules accept; nodes of all operators with all such types are there, with any operands
(`exists_application`). In every memory with filled tensors of the types of the buffers its instruction
succeeds, if no label is refused, and leaves in each of its destinations a filled tensor of the inferred
type. This is so for all kinds of elements and for all shapes, empty ones included, whose sizes and
strides are words, as must be the padded extents of windows and what bounds the neighbourhoods of
channels (`Operator.fits`); but not for a dense layer with a bias of indices and for a batched operator
with empty slices: these always fail, and store nothing. -/
theorem execute_accepted (hlower : f.lower s reuse = .ok a) (hn : f.nodes[j]? = some n)
    (htypes : List.Forall₂ (fun v type => f.valueType s v = .ok type) n.inputs types)
    (haccepts : Typing.resultTypes s n.op types = .ok results) :
    ∃ x, a.operations[j]? = some x ∧ ∀ m : Memory α, m.Typed a →
      (n.op.supports types = true → n.op.fits types results = true →
        (n.op = .softMaxGrad → ∀ label width, ¬ x.Refuses a m label width) →
        ∃ m', x.execute a m = (.ok (), m') ∧ m'.Typed a ∧
          List.Forall₂ (fun b type => ∃ t, m'.read a b = .ok t ∧ t.type = type ∧ t.Filled)
            x.destinations (n.op.filled types results)) ∧
      (n.op.supports types = false → ∃ fault, x.execute a m = (.error ⟨some x, fault⟩, m) ∧
        ((n.op = .fullyConnected ∧ ∃ b, fault = .notFloat b) ∨
          (∃ op, n.op = .batched op) ∧ fault = .kernel .sliceTiling)) := by
  obtain ⟨st, -, h, -⟩ := lowered_of_lower hlower
  have hwt := wellTyped_of_types h hn htypes
  obtain rfl : results = n.results := Except.ok.inj (haccepts.symm.trans hwt.results)
  obtain ⟨x, hx, he⟩ := h.describes.emits (List.getElem?_eq_some_iff.1 hn).1 hn
  exact ⟨x, h.operations_eq ▸ hx, fun m hm =>
    ⟨fun hsupports _ hlabels => runs_of_supports h hn hwt he hsupports hm hlabels,
      fun hsupports => fails_of_unsupported h hn hwt he hsupports hm⟩⟩

/-- The function that applies the operator is lowered, and its instruction fails in a typed memory,
though the typing rules accept the operands. -/
def FailsOn (op : Operator) (types results : List TensorType) : Prop :=
  Typing.resultTypes .empty op types = .ok results ∧
    ∃ (a : Artifact) (x : Instruction) (m : Memory Single) (fault : ExecutionFault),
      (Function.applying op 0 types results).lower (Storage.empty.withPlaceholders (types ++ results))
        true = .ok a ∧
      a.operations[0]? = some x ∧ m.Typed a ∧ x.execute a m = (.error ⟨some x, fault⟩, m)

theorem failsOn {op : Operator} (haccepts : Typing.resultTypes .empty op types = .ok results)
    (hfits : op.fits types results = true)
    (hbytes : (results.map fun type => type.volume * type.kind.bytes).sum < Word.size)
    (hsupports : op.supports types = false) : FailsOn op types results := by
  have htypes : (types.map fun type : TensorType => (Tensor.zeros type : Tensor Single)).map
      Tensor.type = types := by simp [Tensor.type_zeros, Function.comp_def]
  obtain ⟨a, m, hlower, hm, -⟩ := exists_application haccepts hfits hbytes htypes
  obtain ⟨st, -, h, -⟩ := lowered_of_lower hlower
  have hwt := Function.wellTyped_applying (Typing.typed_of_resultTypes haccepts) rfl
  obtain ⟨x, hx, he⟩ := h.describes.emits (i := 0) (Nat.succ_pos _) rfl
  obtain ⟨fault, hexecute, -⟩ := fails_of_unsupported h rfl hwt he hsupports hm
  exact ⟨haccepts, a, x, m, fault, hlower, h.operations_eq ▸ hx, hm, hexecute⟩

end Lowering

namespace Sample

open Lowering

/-- A bias of indices, and slices without elements. -/
theorem failsOn_accepted :
    FailsOn .fullyConnected [.float [1, 1], .float [1, 1], .index [1]] [.float [1, 1]] ∧
      FailsOn (.batched .add) [.float [2, 0], .float [0]] [.float [2, 0]] :=
  ⟨failsOn rfl (by decide) (by decide) rfl, failsOn rfl (by decide) (by decide) rfl⟩

/-- Probabilities of two rows without elements. -/
def emptyRows : Function :=
  .applying .softMax 0 [.float [2, 0], .index [2, 1]] [.float [2, 0]]

def emptyRowsStorage : Storage :=
  Storage.empty.withPlaceholders [.float [2, 0], .index [2, 1], .float [2, 0]]

theorem execute_accepted_emptyRows : ∃ (a : Artifact) (x : Instruction) (m m' : Memory Single),
    emptyRows.lower emptyRowsStorage true = .ok a ∧ a.operations[0]? = some x ∧ m.Typed a ∧
      x.execute a m = (.ok (), m') ∧ List.Forall₂ (fun b type => ∃ t, m'.read a b = .ok t ∧
        t.type = type ∧ t.Filled) x.destinations [.float [2, 0]] := by
  have haccepts : Typing.resultTypes .empty .softMax [.float [2, 0], .index [2, 1]] =
      .ok [.float [2, 0]] := rfl
  have hoperands : ([.zeros (.float [2, 0]), .zeros (.index [2, 1])] : List (Tensor Single)).map
      Tensor.type = [.float [2, 0], .index [2, 1]] := rfl
  obtain ⟨a, m, hlower, hm, -⟩ := exists_application haccepts (by decide) (by decide) hoperands
  obtain ⟨x, hx, hrun⟩ := execute_accepted (α := Single) hlower (j := 0) rfl
    (.cons rfl (.cons rfl .nil)) haccepts
  obtain ⟨m', hexecute, -, hdestinations⟩ := (hrun m hm).1 rfl (by decide) nofun
  exact ⟨a, x, m, m', hlower, hx, hm, hexecute, hdestinations⟩

end Sample

end TensorCompiler
