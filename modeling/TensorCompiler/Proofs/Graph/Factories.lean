import TensorCompiler.Proofs.Graph.Sound
import TensorCompiler.Proofs.Names
import TensorCompiler.Graph.Build

/-!
The factories that build a function are atomic (`Module.create_atomic`). A call that fails leaves the
module as it was. A call that succeeds appends one node, under a free name, and enters it on the
use-lists of its operands; a layer declares its weights and bias, an output its placeholder, and nothing
else changes. What is to be shown is that once a layer has checked its input, the node over the new
weights cannot be refused any more (`createNode_layer`).
-/

namespace TensorCompiler

/-! ## Functions -/

namespace Function

variable {s : Storage} {f f' : Function} {name : String} {op : Operator} {inputs : List Value}

/-- `f'` has one node more than `f`, under a name that was free and is now taken, and differs from `f`
otherwise only by the new node on the use-lists of the nodes that it reads. -/
structure Extended (f f' : Function) (n : Node) : Prop where
  name : f'.name = f.name
  nodes : f'.nodes = f.nodes ++ [n]
  free : n.name ∉ f.nodeNames
  names : f'.nodeNames = f.nodeNames ++ [n.name]
  users : ∀ i < f.size, f'.users i = f.users i ++ List.replicate (n.producers.count i) f.size
  unused : f'.users f.size = []

theorem extended_push {n : Node} (hfree : n.name ∉ f.nodeNames) : f.Extended (f.push n) n where
  name := rfl
  nodes := rfl
  free := hfree
  names := rfl
  users i hi := by rw [users_push, if_neg (Nat.ne_of_lt hi)]
  unused := by rw [users_push, if_pos rfl]

/-- A node that is appended has the operator and operands that were asked for, and results of the types
that follow from them. -/
theorem extended_of_append (h : f.append s name op inputs = .ok f') : ∃ n types, f.Extended f' n ∧
    n.op = op ∧ n.inputs = inputs ∧ inputs.mapM (f.valueType s) = .ok types ∧
    Typing.resultTypes s op types = .ok n.results := by
  obtain ⟨types, n, htypes, rfl, rfl, -, htyped, hgiven, rfl⟩ := append_ok h
  exact ⟨n, types, extended_push hgiven.notMem, rfl, rfl, mapM_ok_iff.2 htypes,
    Typing.resultTypes_of_typed htyped⟩

/-- A value keeps its type while storage grows. -/
theorem valueType_of_storage {s' : Storage} (hs : s.KeepsTypes s') {v : Value} {type : TensorType}
    (h : f.valueType s v = .ok type) : f.valueType s' v = .ok type := by
  cases v with
  | node i r => exact h
  | storage ref => exact valueType_storage_ok_iff.2 (hs (valueType_storage_ok_iff.1 h))

end Function

/-! ## Storage -/

namespace Storage

theorem type?_addVariable (s : Storage) (name : String) (payload : Tensor Single)
    (isPublic trainable : Bool) :
    (s.addVariable name payload isPublic trainable).type? (.var s.vars.length) =
      some payload.type := by
  simp [type?, addVariable]

theorem type?_addPlaceholder (s : Storage) (name : String) (type : TensorType) (trainable : Bool) :
    (s.addPlaceholder name type trainable).type? (.placeholder s.placeholders.length) =
      some type := by
  simp [type?, addPlaceholder]

end Storage

namespace Module

variable {m m' : Module} {k id : Nat} {f : Function} {name : String} {op : Operator}
  {inputs : List Value}

/-! ## Single nodes -/

/-- A node with operands that its operator takes is not refused. -/
theorem createNode_total {types results : List TensorType} (hf : m.function k = .ok f)
    (hinputs : List.Forall₂ (fun v type => f.valueType m.storage v = .ok type) inputs types)
    (hweight : Function.hasWeight op inputs = true)
    (htyped : Typing.Typed m.storage op types results) (name : String) :
    ∃ f', f.append m.storage name op inputs = .ok f' ∧
      m.createNode k name op inputs = (.ok f.size, m.setFunction k f') := by
  obtain ⟨n, -, -, -, happend⟩ := Function.append_total name hinputs hweight htyped
  exact ⟨f.push n, happend, by simp only [createNode, hf, happend]⟩

/-! ## Layers -/

@[simp]
theorem createWeights_numbers (m : Module) (weights bias : String) (shape : Shape)
    (fanIn depth : Nat) : (m.createWeights weights bias shape fanIn depth).1 =
      (m.storage.vars.length, m.storage.vars.length + 1) := by
  simp [createWeights, createVariable, Storage.addVariable]

/-- Weights are declared after the variables before them, and everything keeps its type. -/
theorem createWeights_storage (m : Module) (weights bias : String) (shape : Shape)
    (fanIn depth : Nat) : let s := (m.createWeights weights bias shape fanIn depth).2.storage
    m.storage.KeepsTypes s ∧ s.type? (.var m.storage.vars.length) = some (.float shape) ∧
      s.type? (.var (m.storage.vars.length + 1)) = some (.float [depth]) := by
  let drawn := (Random.xavier shape fanIn m.generator).1
  let s₁ := m.storage.addVariable weights drawn false true
  have hkeeps : s₁.KeepsTypes (m.createWeights weights bias shape fanIn depth).2.storage :=
    Storage.keepsTypes_addVariable ..
  have hlength : s₁.vars.length = m.storage.vars.length + 1 := by simp [s₁, Storage.addVariable]
  refine ⟨(Storage.keepsTypes_addVariable ..).trans hkeeps,
    hkeeps (Storage.type?_addVariable ..), ?_⟩
  rw [← hlength]
  exact Storage.type?_addVariable s₁ bias (.zeros (.float [depth])) false true

/-- Over the weights that a layer has just declared, the node that its operator was checked with is not
refused. -/
theorem createNode_layer {input : Value} {type : TensorType} {shape : Shape} {depth : Nat}
    {results : List TensorType} (hf : m.function k = .ok f)
    (hinput : f.valueType m.storage input = .ok type)
    (hresults : Typing.resultTypes m.storage op [type, .float shape, .float [depth]] = .ok results)
    (hweight : ∀ inputs, Function.hasWeight op inputs = true) (weights bias : String) (fanIn : Nat)
    (name : String) : let declared := (m.createWeights weights bias shape fanIn depth).2
    ∃ f', f.append declared.storage name op [input, .storage (.var m.storage.vars.length),
        .storage (.var (m.storage.vars.length + 1))] = .ok f' ∧
      declared.createNode k name op [input, .storage (.var m.storage.vars.length),
        .storage (.var (m.storage.vars.length + 1))] = (.ok f.size, declared.setFunction k f') := by
  intro declared
  obtain ⟨hkeeps, htype, htype'⟩ := m.createWeights_storage weights bias shape fanIn depth
  have hoperands : List.Forall₂ (fun v type => f.valueType declared.storage v = .ok type)
      [input, .storage (.var m.storage.vars.length), .storage (.var (m.storage.vars.length + 1))]
      [type, .float shape, .float [depth]] :=
    .cons (Function.valueType_of_storage hkeeps hinput)
      (.cons (Function.valueType_storage_ok_iff.2 htype)
        (.cons (Function.valueType_storage_ok_iff.2 htype') .nil))
  exact createNode_total (m := declared) hf hoperands (hweight _)
    ((Typing.typed_of_resultTypes hresults).mono hkeeps) name

theorem checkConvolution_ok {input : Value} {p : Convolution} {c : Nat}
    (h : m.checkConvolution k input p = .ok c) : ∃ f type results, m.function k = .ok f ∧
      f.valueType m.storage input = .ok type ∧
      Typing.resultTypes m.storage (.conv p)
        [type, .float [p.depth, p.kernel, p.kernel, c], .float [p.depth]] = .ok results := by
  unfold checkConvolution at h
  obtain ⟨f, hf, h⟩ := bind_ok_iff.1 h
  obtain ⟨type, htype, h⟩ := bind_ok_iff.1 h
  split at h
  · simp only [bind_ok_iff, mapError_ok_iff, pure_ok_iff] at h
    obtain ⟨results, hresults, rfl⟩ := h
    exact ⟨f, type, results, hf, htype, hresults⟩
  · cases h

theorem checkDense_ok {input : Value} {depth width : Nat}
    (h : m.checkDense k input depth = .ok width) : ∃ f type results, m.function k = .ok f ∧
      f.valueType m.storage input = .ok type ∧
      Typing.resultTypes m.storage .fullyConnected
        [type, .float [width, depth], .float [depth]] = .ok results := by
  unfold checkDense at h
  obtain ⟨f, hf, h⟩ := bind_ok_iff.1 h
  obtain ⟨type, htype, h⟩ := bind_ok_iff.1 h
  split at h
  · simp only [bind_ok_iff, mapError_ok_iff, pure_ok_iff] at h
    obtain ⟨results, hresults, rfl⟩ := h
    exact ⟨f, type, results, hf, htype, hresults⟩
  · cases h

/-! ## Factories -/

/-- A call of a factory; all but the layers and outputs that declare storage of their own make a single
node over given operands. -/
inductive Factory where
  | node (name : String) (op : Operator) (inputs : List Value)
  | convolution (name : String) (input : Value) (p : Convolution)
  | dense (name : String) (input : Value) (depth : Nat)
  | output (name : String) (value : Value)

/-- Calls a factory of function `k`. -/
def create (m : Module) (k : Nat) : Factory → Except Error Nat × Module
  | .node name op inputs => m.createNode k name op inputs
  | .convolution name input p => m.createConvolution k name input p
  | .dense name input depth => m.createDense k name input depth
  | .output name value => m.createOutput k name value

namespace Factory

/-- The operator of the node that is to be appended. -/
def operator (m : Module) : Factory → Operator
  | .node _ op _ => op
  | .convolution _ _ p => .conv p
  | .dense .. => .fullyConnected
  | .output .. => .save (.placeholder m.storage.placeholders.length)

/-- The operands of the node that is to be appended; weights are the next variables. -/
def operands (m : Module) : Factory → List Value
  | .node _ _ operands => operands
  | .convolution _ input _ | .dense _ input _ =>
    [input, .storage (.var m.storage.vars.length), .storage (.var (m.storage.vars.length + 1))]
  | .output _ value => [value]

/-- What a call returns: the number of the placeholder of an output, else of the node. -/
def number (m : Module) (f : Function) : Factory → Nat
  | .output .. => m.storage.placeholders.length
  | _ => f.size

/-- `m'` has, after the variables of `m`, weights drawn from its generator and a zero bias: trainable,
private, and under free names. -/
structure DeclaresLayer (m m' : Module) (shape : Shape) (fanIn depth : Nat) : Prop where
  storage : ∃ weights bias : String, weights ∉ m.storage.varNames ∧
    bias ∉ m.storage.varNames ++ [weights] ∧
    m'.storage = { m.storage with
      vars := m.storage.vars ++
        [⟨weights, false, true, (Random.xavier shape fanIn m.generator).1⟩,
          ⟨bias, false, true, .zeros (.float [depth])⟩]
      varNames := m.storage.varNames ++ [weights, bias] }
  generator : m'.generator = (Random.xavier shape fanIn m.generator).2

/-- `m'` has, after the placeholders of `m`, one that is not trainable, under a free name. -/
structure DeclaresOutput (m m' : Module) (type : TensorType) : Prop where
  storage : ∃ name : String, name ∉ m.storage.placeholderNames ∧
    m'.storage = { m.storage with
      placeholders := m.storage.placeholders ++ [⟨name, type, false⟩]
      placeholderNames := m.storage.placeholderNames ++ [name] }
  generator : m'.generator = m.generator

/-- The storage and draws that a call leaves. -/
def Declares (m : Module) (k : Nat) (m' : Module) : Factory → Prop
  | .node .. => m'.storage = m.storage ∧ m'.generator = m.generator
  | .convolution _ input p => ∃ c, m.checkConvolution k input p = .ok c ∧
      DeclaresLayer m m' [p.depth, p.kernel, p.kernel, c] (p.kernel * p.kernel * c) p.depth
  | .dense _ input depth => ∃ width, m.checkDense k input depth = .ok width ∧
      DeclaresLayer m m' [width, depth] width depth
  | .output _ value => ∃ f type, m.function k = .ok f ∧ f.valueType m.storage value = .ok type ∧
      DeclaresOutput m m' type

/-- What a call that succeeds does: one node more in the function, the storage that it declares, and
nothing else. -/
structure Created (m : Module) (k : Nat) (call : Factory) (id : Nat) (m' : Module) : Prop where
  node : ∃ f f' n types, m.function k = .ok f ∧ m'.functions = m.functions.insert k f' ∧
    f.Extended f' n ∧ n.op = call.operator m ∧ n.inputs = call.operands m ∧
    n.inputs.mapM (f.valueType m'.storage) = .ok types ∧
    Typing.resultTypes m'.storage n.op types = .ok n.results ∧ id = call.number m f
  next : m'.nextFunction = m.nextFunction
  declares : call.Declares m k m'

/-- The part of `Created` about the node, over the module in which storage has been declared. -/
theorem created_of_append (call : Factory) {declared : Module} {f' : Function}
    (hf : m.function k = .ok f)
    (happend : f.append declared.storage name (call.operator m) (call.operands m) = .ok f')
    (hfunctions : declared.functions = m.functions)
    (hnext : declared.nextFunction = m.nextFunction)
    (hdeclares : call.Declares m k (declared.setFunction k f')) :
    call.Created m k (call.number m f) (declared.setFunction k f') := by
  obtain ⟨n, types, hextended, hop, hin, htypes, hresults⟩ := Function.extended_of_append happend
  refine ⟨⟨f, f', n, types, hf, ?_, hextended, hop, hin, ?_, ?_, rfl⟩, hnext, hdeclares⟩
  · rw [setFunction, hfunctions]
  · rw [hin]
    exact htypes
  · rw [hop]
    exact hresults

theorem declaresLayer_createWeights (m : Module) (weights bias : String) (shape : Shape)
    (fanIn depth k : Nat) (f : Function) :
    DeclaresLayer m ((m.createWeights weights bias shape fanIn depth).2.setFunction k f) shape fanIn
      depth := by
  refine ⟨⟨_, _, Names.fresh_notMem m.storage.varNames weights, Names.fresh_notMem _ bias, ?_⟩, rfl⟩
  simp [createWeights, createVariable, setFunction, Storage.addVariable]

/-- The call is refused without a change, or does what it is to do. -/
def Atomic (m : Module) (k : Nat) (call : Factory) : Prop :=
  (∃ e, m.create k call = (.error e, m)) ∨
    ∃ id m', m.create k call = (.ok id, m') ∧ call.Created m k id m'

theorem atomic_node (m : Module) (k : Nat) (name : String) (op : Operator) (inputs : List Value) :
    Atomic m k (.node name op inputs) := by
  rcases m.createNode_cases k name op inputs with h | ⟨f, f', hf, happend, h⟩
  · exact .inl h
  · exact .inr ⟨_, _, h,
      created_of_append (.node name op inputs) hf happend rfl rfl ⟨rfl, rfl⟩⟩

theorem atomic_convolution (m : Module) (k : Nat) (name : String) (input : Value)
    (p : Convolution) : Atomic m k (.convolution name input p) := by
  cases hcheck : m.checkConvolution k input p with
  | error e => exact .inl ⟨e, by simp only [create, createConvolution, hcheck]⟩
  | ok c =>
    obtain ⟨f, type, results, hf, hinput, hresults⟩ := checkConvolution_ok hcheck
    obtain ⟨f', happend, h⟩ := createNode_layer hf hinput hresults (fun _ => rfl)
      (name ++ ".filter") (name ++ ".bias") (p.kernel * p.kernel * c) name
    refine .inr ⟨_, _, ?_, created_of_append (.convolution name input p) hf happend rfl rfl
      ⟨c, hcheck, declaresLayer_createWeights ..⟩⟩
    simp only [create, createConvolution, hcheck, createWeights_numbers]
    exact h

theorem atomic_dense (m : Module) (k : Nat) (name : String) (input : Value) (depth : Nat) :
    Atomic m k (.dense name input depth) := by
  cases hcheck : m.checkDense k input depth with
  | error e => exact .inl ⟨e, by simp only [create, createDense, hcheck]⟩
  | ok width =>
    obtain ⟨f, type, results, hf, hinput, hresults⟩ := checkDense_ok hcheck
    obtain ⟨f', happend, h⟩ := createNode_layer hf hinput hresults (fun _ => rfl)
      (name ++ ".weights") (name ++ ".bias") width name
    refine .inr ⟨_, _, ?_, created_of_append (.dense name input depth) hf happend rfl rfl
      ⟨width, hcheck, declaresLayer_createWeights ..⟩⟩
    simp only [create, createDense, hcheck, createWeights_numbers]
    exact h

/-- The placeholder of an output has the type of the value, so saving into it is not refused. -/
theorem atomic_output (m : Module) (k : Nat) (name : String) (value : Value) :
    Atomic m k (.output name value) := by
  cases hvalue : (m.function k).bind (·.valueType m.storage value) with
  | error e => exact .inl ⟨e, by simp only [create, createOutput, hvalue]⟩
  | ok type =>
    obtain ⟨f, hf, htype⟩ := bind_ok_iff.1 hvalue
    have hdestination := m.storage.type?_addPlaceholder name type false
    have hvalue' : f.valueType (m.createPlaceholder name type false).2.storage value = .ok type :=
      Function.valueType_of_storage (Storage.keepsTypes_addPlaceholder ..) htype
    obtain ⟨f', happend, h⟩ := createNode_total (m := (m.createPlaceholder name type false).2) hf
      (.cons hvalue' .nil) rfl (.save (.placeholder m.storage.placeholders.length) type hdestination)
      ("save_" ++ name)
    refine .inr ⟨_, _, ?_, created_of_append (.output name value) hf happend rfl rfl
      ⟨f, type, hf, htype, ⟨_, Names.fresh_notMem _ name, rfl⟩, rfl⟩⟩
    simp only [create, createOutput, hvalue]
    exact congrArg (fun r => (r.1.map fun _ => m.storage.placeholders.length, r.2)) h

theorem atomic (m : Module) (k : Nat) (call : Factory) : Atomic m k call := by
  cases call with
  | node name op inputs => exact atomic_node m k name op inputs
  | convolution name input p => exact atomic_convolution m k name input p
  | dense name input depth => exact atomic_dense m k name input depth
  | output name value => exact atomic_output m k name value

end Factory

/-- A call of a factory is refused and leaves the module as it was, or has appended one node to the
function, with the storage that the layer or output declares, and changed nothing else. -/
theorem create_atomic (m : Module) (k : Nat) (call : Factory) :
    (∃ e, m.create k call = (.error e, m)) ∨
      ∃ id m', m.create k call = (.ok id, m') ∧ call.Created m k id m' :=
  Factory.atomic m k call

end Module

end TensorCompiler
