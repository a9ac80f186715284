import TensorCompiler.Artifact.Json
import TensorCompiler.Proofs.Artifact.Range
import TensorCompiler.Proofs.Format.JsonValue
import TensorCompiler.Proofs.Maps

/-!
Artifacts as JSON. What is written for a type is read back as it was, except that a number that is
not finite is written as null, which no reader takes for a number. So an artifact is read back from
its text if all its numbers are finite, and otherwise not at all (`Artifact.ofJsonText?_jsonText`).
-/

namespace TensorCompiler

open Json

/-! ## Types of constructors -/

@[simp] theorem ElementKind.ofJson?_toJson (k : ElementKind) : ofJson? k.toJson = some k := by
  cases k <;> simp [ofJson?, toJson, name, isUnit]

@[simp] theorem BinaryOp.ofJson?_name (op : BinaryOp) : ofJson? (ofString op.name) = some op := by
  cases op <;> simp [ofJson?, name, isUnit]

@[simp] theorem UnaryOp.ofJson?_name (op : UnaryOp) : ofJson? (ofString op.name) = some op := by
  cases op <;> simp [ofJson?, name, isUnit]

@[simp] theorem BatchOp.ofJson?_name (op : BatchOp) : ofJson? (ofString op.name) = some op := by
  cases op <;> simp [ofJson?, name, isUnit]

@[simp] theorem Operand.accessOfJson?_name (a : Access) :
    accessOfJson? (ofString a.name) = some a := by
  cases a <;> simp [accessOfJson?, accessOfName?, Access.name, isUnit]

theorem StorageRef.ofJson?_toJson {ref : StorageRef} (h : ref.InRange) :
    ofJson? ref.toJson = some ref := by
  cases ref with
  | var id => simp [ofJson?, toJson, id?_ofNat h]
  | placeholder id => simp [ofJson?, toJson, id?_ofNat h]

theorem BufferKind.ofJson?_toJson {kind : BufferKind} (h : kind.InRange) :
    ofJson? kind.toJson = some kind := by
  cases kind with
  | weight storage => simp [ofJson?, toJson, StorageRef.ofJson?_toJson h]
  | activation => simp [ofJson?, toJson, isUnit]
  | view source =>
    simp [ofJson?, toJson, id?_ofNat h]
  | state => simp [ofJson?, toJson, isUnit]

/-! ## Records -/

theorem sizes_ofJson? {sizes : List Nat} (h : ListInRange IsSize sizes) :
    (Json.array (sizes.map ofNat)).list? size? = some sizes :=
  list?_some fun _ hn => size?_ofNat (h.2 _ hn)

theorem TensorType.ofJson?_toJson {t : TensorType} (h : t.InRange) :
    ofJson? t.toJson = some t := by
  simp [ofJson?, toJson, sizes_ofJson? h]

theorem Buffer.ofJson?_toJson {b : Buffer} (h : b.InRange) : ofJson? b.toJson = some b := by
  obtain ⟨hid, -, htype, hkind⟩ := h
  simp [ofJson?, toJson, id?_ofNat hid, TensorType.ofJson?_toJson htype, BufferKind.ofJson?_toJson hkind]

theorem Operand.ofJson?_toJson {o : Operand} (h : o.InRange) : ofJson? o.toJson = some o := by
  simp [ofJson?, toJson, id?_ofNat h]

theorem Window.ofJson?_toJson {w : Window} (h : w.InRange) : ofJson? w.toJson = some w := by
  obtain ⟨hkernel, hstride, hpad⟩ := h
  simp [ofJson?, toJson, size?_ofNat hkernel, size?_ofNat hstride, size?_ofNat hpad]

theorem Convolution.ofJson?_toJson {p : Convolution} (h : p.InRange) :
    ofJson? p.toJson = some p := by
  obtain ⟨hdepth, hkernel, hstride, hpad⟩ := h
  simp [ofJson?, toJson, size?_ofNat hdepth, size?_ofNat hkernel, size?_ofNat hstride,
    size?_ofNat hpad]

theorem LiveRange.ofJson?_toJson {r : LiveRange} (h : r.InRange) : ofJson? r.toJson = some r := by
  obtain ⟨hstart, hstop⟩ := h
  simp [ofJson?, toJson, size?_ofNat hstart, size?_ofNat hstop]

theorem Slot.ofJson?_toJson {s : Slot} (h : s.InRange) : ofJson? s.toJson = some s := by
  obtain ⟨hid, hlen, hoffset, hbytes⟩ := h
  simp [ofJson?, toJson, size?_ofNat hid, size?_ofNat hlen, size?_ofNat hoffset,
    size?_ofNat hbytes]

/-! ## Parameters that may not be finite -/

theorem Normalization.ofJson?_toJson {p : Normalization} (h : p.InRange)
    (hnumbers : ∀ x ∈ [p.alpha, p.beta, p.k], x.ReadsBack) :
    ofJson? p.toJson =
      Option.guard (fun p => [p.alpha, p.beta, p.k].all Single.isFinite) p := by
  simp only [List.forall_mem_cons] at hnumbers
  obtain ⟨halpha, hbeta, hk, -⟩ := hnumbers
  simp [ofJson?, toJson, size?_ofNat h, single?_ofSingle halpha, single?_ofSingle hbeta,
    single?_ofSingle hk, Option.guard, ite_bind, ite_and]

theorem Descent.ofJson?_toJson {p : Descent} (h : p.InRange)
    (hnumbers : ∀ x ∈ [p.learningRate, p.momentum, p.l1Decay, p.l2Decay], x.ReadsBack) :
    ofJson? p.toJson = Option.guard
      (fun p => [p.learningRate, p.momentum, p.l1Decay, p.l2Decay].all Single.isFinite) p := by
  simp only [List.forall_mem_cons] at hnumbers
  obtain ⟨hrate, hmomentum, hl1, hl2, -⟩ := hnumbers
  simp [ofJson?, toJson, fieldNames, size?_ofNat h, single?_ofSingle hrate,
    single?_ofSingle hmomentum, single?_ofSingle hl1, single?_ofSingle hl2, Option.guard,
    ite_bind, ite_and]

namespace Opcode

/-- An operation without parameter is its name alone. -/
theorem ofJson?_plain {name : String} {op : Opcode} (h : plainOfName? name = some op) :
    ofJson? (ofString name) = some op := by
  simp [ofJson?, h, isUnit]

theorem ofJson?_parametric {name : String} {arg : Json} (h : plainOfName? name = none) :
    ofJson? (variant name arg) = parametricOfName? name arg := by
  simp [ofJson?, h]

theorem ofJson?_toJson {op : Opcode} (h : op.InRange) (hnumbers : ∀ x ∈ op.numbers, x.ReadsBack) :
    ofJson? op.toJson = Option.guard (·.numbers.all Single.isFinite) op := by
  cases op with
  | alloc | dealloc | view | copy | reluGrad | fullyConnected | fullyConnectedGrad | softMax
  | softMaxGrad | batchedMatMul => exact ofJson?_plain rfl
  | splat value =>
    have hvalue := single?_ofSingle (hnumbers value List.mem_cons_self)
    rw [toJson, ofJson?_parametric rfl]
    simp [parametricOfName?, hvalue, Option.guard, ite_bind, numbers]
  | binary op =>
    rw [toJson, ofJson?_parametric rfl, parametricOfName?, BinaryOp.ofJson?_name]
    rfl
  | unary op =>
    rw [toJson, ofJson?_parametric rfl, parametricOfName?, UnaryOp.ofJson?_name]
    rfl
  | conv p =>
    rw [toJson, ofJson?_parametric rfl, parametricOfName?, Convolution.ofJson?_toJson h]
    rfl
  | convGrad p =>
    rw [toJson, ofJson?_parametric rfl, parametricOfName?, Convolution.ofJson?_toJson h]
    rfl
  | maxPool w =>
    rw [toJson, ofJson?_parametric rfl, parametricOfName?, Window.ofJson?_toJson h]
    rfl
  | maxPoolGrad w =>
    rw [toJson, ofJson?_parametric rfl, parametricOfName?, Window.ofJson?_toJson h]
    rfl
  | normalization p =>
    rw [toJson, ofJson?_parametric rfl, parametricOfName?,
      Normalization.ofJson?_toJson h hnumbers]
    simp [Option.guard, apply_ite, numbers]
  | normalizationGrad p =>
    rw [toJson, ofJson?_parametric rfl, parametricOfName?,
      Normalization.ofJson?_toJson h hnumbers]
    simp [Option.guard, apply_ite, numbers]
  | batchedReduce =>
    rw [toJson, ofJson?_parametric rfl]
    simp [parametricOfName?, reduceOfJson?, isUnit, Option.guard, numbers]
  | batched op =>
    rw [toJson, ofJson?_parametric rfl, parametricOfName?, BatchOp.ofJson?_name]
    rfl
  | transpose perm =>
    rw [toJson, ofJson?_parametric rfl]
    simp [parametricOfName?, sizes_ofJson? h, Option.guard, numbers]
  | sgd p =>
    rw [toJson, ofJson?_parametric rfl, parametricOfName?, Descent.ofJson?_toJson h hnumbers]
    simp [Option.guard, apply_ite, numbers]

end Opcode

theorem Instruction.ofJson?_toJson {i : Instruction} (h : i.InRange)
    (hnumbers : ∀ x ∈ i.op.numbers, x.ReadsBack) :
    ofJson? i.toJson = Option.guard (·.op.numbers.all Single.isFinite) i := by
  have hoperands : (Json.array (i.operands.map (·.toJson))).list? Operand.ofJson? =
      some i.operands := list?_some fun o ho => Operand.ofJson?_toJson (h.2.2 o ho)
  simp [ofJson?, toJson, Opcode.ofJson?_toJson h.1 hnumbers, hoperands, Option.guard, ite_bind]

/-! ## Maps and plans -/

namespace IdMap

variable {β : Type} {item : β → Json} {item? : Json → Option β} {m : IdMap β}

theorem ofJson?_toJson (hkeys : ∀ e ∈ m.entries, IsId e.1)
    (h : ∀ e ∈ m.entries, item? (item e.2) = some e.2) :
    ofJson? item? (m.toJson item) = some m := by
  have hentries : (m.toJson item).idMap? item? = some m.entries := by
    rw [toJson, idMap?, List.mapM_map]
    rw [mapM_eq_some_map (g := id) fun e he => by simp [idKey?_toDigits (hkeys e he), h e he],
      List.map_id]
  rw [ofJson?, hentries, Option.map_some, ofList_entries]

end IdMap

theorem Plan.ofJson?_toJson {p : Plan} (h : p.InRange) : ofJson? p.toJson = some p := by
  obtain ⟨hranges, hassignments, hroots, hslots, hbytes⟩ := h
  have hranges := IdMap.ofJson?_toJson (fun e he => (hranges.2 e he).1)
    fun e he => LiveRange.ofJson?_toJson (hranges.2 e he).2
  have hassignments := IdMap.ofJson?_toJson (fun e he => (hassignments.2 e he).1)
    fun e he => size?_ofNat (hassignments.2 e he).2
  have hroots := IdMap.ofJson?_toJson (fun e he => (hroots.2 e he).1)
    fun e he => id?_ofNat (hroots.2 e he).2
  have hslots : (Json.array (p.slots.map (·.toJson))).list? Slot.ofJson? = some p.slots :=
    list?_some fun s hs => Slot.ofJson?_toJson (hslots.2 s hs)
  simp [ofJson?, toJson, hranges, hassignments, hroots, hslots, size?_ofNat hbytes]

/-! ## What is written -/

@[simp] theorem TensorType.written (t : TensorType) : Written t.toJson := by
  simp [toJson, ElementKind.toJson, written_ofNat]

@[simp] theorem StorageRef.written (ref : StorageRef) : Written ref.toJson := by
  cases ref <;> simp [toJson, written_ofNat]

@[simp] theorem BufferKind.written (kind : BufferKind) : Written kind.toJson := by
  cases kind <;> simp [toJson, written_ofNat]

@[simp] theorem Buffer.written (b : Buffer) : Written b.toJson := by
  simp [toJson, written_ofNat]

@[simp] theorem Opcode.written (op : Opcode) : Written op.toJson := by
  cases op <;> simp [toJson, Convolution.toJson, Window.toJson, Normalization.toJson,
    Descent.toJson, written_ofNat, written_ofSingle]

@[simp] theorem Instruction.written (i : Instruction) : Written i.toJson := by
  simp [toJson, Operand.toJson, written_ofNat]

theorem IdMap.written {β : Type} {item : β → Json} (h : ∀ b, Written (item b)) (m : IdMap β) :
    Written (m.toJson item) := by
  refine .object ?_ ?_
  · intro f hf
    obtain ⟨e, -, rfl⟩ := List.mem_map.1 hf
    exact ⟨_, (escape_toDigits e.1).symm⟩
  · intro f hf
    obtain ⟨e, -, rfl⟩ := List.mem_map.1 hf
    exact h e.2

@[simp] theorem LiveRange.written (r : LiveRange) : Written r.toJson := by
  simp [toJson, written_ofNat]

@[simp] theorem Plan.written (p : Plan) : Written p.toJson := by
  simp [toJson, IdMap.written LiveRange.written, IdMap.written written_ofNat, written_ofNat,
    Slot.toJson, ElementKind.toJson]

/-! ## Artifacts -/

namespace Artifact

theorem ofJson?_toJson {a : Artifact} (h : a.InRange) (hnumbers : ∀ x ∈ a.numbers, x.ReadsBack) :
    ofJson? a.toJson = Option.guard (·.numbers.all Single.isFinite) a := by
  obtain ⟨-, hbuffers, hinstructions, hplan⟩ := h
  have hbuffers : (Json.array (a.buffers.map (·.toJson))).list? Buffer.ofJson? = some a.buffers :=
    list?_some fun b hb => Buffer.ofJson?_toJson (hbuffers.2 b hb)
  have hinstructions := list?_guard fun i hi => Instruction.ofJson?_toJson (hinstructions.2 i hi)
    fun x hx => hnumbers x (List.mem_flatMap.2 ⟨i, hi, hx⟩)
  simp [ofJson?, toJson, hbuffers, hinstructions, Plan.ofJson?_toJson hplan, Option.guard, ite_bind,
    numbers]

theorem written (a : Artifact) : Written a.toJson := by
  simp [toJson]

theorem read_jsonText {a : Artifact} (h : a.InRange) (hnumbers : ∀ x ∈ a.numbers, x.ReadsBack) :
    ofJsonText? a.jsonText = Option.guard (·.numbers.all Single.isFinite) a := by
  rw [ofJsonText?, jsonText, ofText?_pretty (written a), Option.bind_some,
    ofJson?_toJson h hnumbers]

/-- The text of an artifact whose numbers are all finite is read as that artifact, and the text of
any other is refused. -/
theorem ofJsonText?_jsonText {a : Artifact} (h : a.InRange)
    (hnumbers : ∀ x ∈ a.numbers, x.ReadsBack) :
    ofJsonText? a.jsonText = if ∀ x ∈ a.numbers, x.isFinite = true then some a else none := by
  rw [read_jsonText h hnumbers]
  simp [Option.guard]

/-- With the parameter 0.1, and with an infinite one. -/
theorem ofJsonText?_jsonText_saved :
    ofJsonText? (Sample.saved ⟨0x3dcccccd⟩).jsonText = some (Sample.saved ⟨0x3dcccccd⟩) ∧
      ofJsonText? (Sample.saved .infinity).jsonText = none := by
  constructor
  · rw [ofJsonText?_jsonText (Sample.saved_inRange _) (by decide +kernel), if_pos (by decide)]
  · rw [ofJsonText?_jsonText (Sample.saved_inRange _) (by decide +kernel), if_neg (by decide)]

end Artifact

end TensorCompiler
