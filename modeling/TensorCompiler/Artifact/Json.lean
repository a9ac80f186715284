import TensorCompiler.Artifact.Basic
import TensorCompiler.Format.JsonValue

/-!
Artifacts as JSON: for every type its form (`toJson`) and the reader of that form (`ofJson?`).
-/

namespace TensorCompiler

open Json (record variant ofString ofNat ofSingle record? variant? isUnit size? id? single?)

namespace ElementKind

def toJson (k : ElementKind) : Json := ofString k.name

def ofJson? (j : Json) : Option ElementKind := do
  let (name, arg) ← variant? j
  match name, isUnit arg with
  | "Float", true => some .float
  | "Index", true => some .index
  | _, _ => none

end ElementKind

namespace TensorType

def toJson (t : TensorType) : Json :=
  record [("elem", t.kind.toJson), ("shape", record [("dims", .array (t.shape.map ofNat))])]

def ofJson? (j : Json) : Option TensorType := do
  match ← record? ["elem", "shape"] j with
  | [kind, shape] =>
    match ← record? ["dims"] shape with
    | [dims] => return ⟨← ElementKind.ofJson? kind, ← dims.list? size?⟩
    | _ => none
  | _ => none

end TensorType

namespace StorageRef

def toJson : StorageRef → Json
  | var id => variant "Variable" (ofNat id)
  | placeholder id => variant "Placeholder" (ofNat id)

def ofJson? (j : Json) : Option StorageRef := do
  match ← variant? j with
  | ("Variable", some arg) => return .var (← id? arg)
  | ("Placeholder", some arg) => return .placeholder (← id? arg)
  | _ => none

end StorageRef

namespace BufferKind

def toJson : BufferKind → Json
  | weight storage => variant "Weight" storage.toJson
  | activation => ofString "Activation"
  | view source => variant "View" (record [("of", ofNat source)])
  | state => ofString "State"

def ofJson? (j : Json) : Option BufferKind := do
  match ← variant? j with
  | ("Weight", some arg) => return .weight (← StorageRef.ofJson? arg)
  | ("View", some arg) =>
    match ← record? ["of"] arg with
    | [source] => return .view (← id? source)
    | _ => none
  | ("Activation", arg) => if isUnit arg then return .activation else none
  | ("State", arg) => if isUnit arg then return .state else none
  | _ => none

end BufferKind

namespace Buffer

def toJson (b : Buffer) : Json :=
  record [("id", ofNat b.id), ("name", ofString b.name), ("ty", b.type.toJson),
    ("kind", b.kind.toJson)]

def ofJson? (j : Json) : Option Buffer := do
  match ← record? ["id", "name", "ty", "kind"] j with
  | [id, name, type, kind] =>
    return {
      id := ← id? id
      name := ← name.string?
      type := ← TensorType.ofJson? type
      kind := ← BufferKind.ofJson? kind }
  | _ => none

end Buffer

namespace Operand

def accessOfName? : String → Option Access
  | "Read" => some .read
  | "Write" => some .write
  | "ReadWrite" => some .readWrite
  | _ => none

def accessOfJson? (j : Json) : Option Access := do
  let (name, arg) ← variant? j
  let access ← accessOfName? name
  if isUnit arg then some access else none

def toJson (o : Operand) : Json :=
  record [("buffer", ofNat o.buffer), ("access", ofString o.access.name)]

def ofJson? (j : Json) : Option Operand := do
  match ← record? ["buffer", "access"] j with
  | [buffer, access] => return ⟨← id? buffer, ← accessOfJson? access⟩
  | _ => none

end Operand

namespace BinaryOp

def name : BinaryOp → String
  | add => "Add"
  | sub => "Sub"
  | mul => "Mul"

def ofJson? (j : Json) : Option BinaryOp := do
  let (name, arg) ← variant? j
  match name, isUnit arg with
  | "Add", true => some .add
  | "Sub", true => some .sub
  | "Mul", true => some .mul
  | _, _ => none

end BinaryOp

namespace UnaryOp

def name : UnaryOp → String
  | relu => "Relu"
  | sigmoid => "Sigmoid"
  | tanh => "Tanh"

def ofJson? (j : Json) : Option UnaryOp := do
  let (name, arg) ← variant? j
  match name, isUnit arg with
  | "Relu", true => some .relu
  | "Sigmoid", true => some .sigmoid
  | "Tanh", true => some .tanh
  | _, _ => none

end UnaryOp

namespace BatchOp

def name : BatchOp → String
  | add => "Add"
  | mul => "Mul"

def ofJson? (j : Json) : Option BatchOp := do
  let (name, arg) ← variant? j
  match name, isUnit arg with
  | "Add", true => some .add
  | "Mul", true => some .mul
  | _, _ => none

end BatchOp

namespace Window

def toJson (w : Window) : Json :=
  record [("kernel", ofNat w.kernel), ("stride", ofNat w.stride), ("pad", ofNat w.pad)]

def ofJson? (j : Json) : Option Window := do
  match ← record? ["kernel", "stride", "pad"] j with
  | [kernel, stride, pad] => return ⟨← size? kernel, ← size? stride, ← size? pad⟩
  | _ => none

end Window

namespace Convolution

def toJson (p : Convolution) : Json :=
  record [("depth", ofNat p.depth), ("kernel", ofNat p.kernel), ("stride", ofNat p.stride),
    ("pad", ofNat p.pad)]

def ofJson? (j : Json) : Option Convolution := do
  match ← record? ["depth", "kernel", "stride", "pad"] j with
  | [depth, kernel, stride, pad] =>
    return {
      depth := ← size? depth
      kernel := ← size? kernel
      stride := ← size? stride
      pad := ← size? pad }
  | _ => none

end Convolution

namespace Normalization

def toJson (p : Normalization) : Json :=
  record [("half_window", ofNat p.halfWindow), ("alpha", ofSingle p.alpha),
    ("beta", ofSingle p.beta), ("k", ofSingle p.k)]

def ofJson? (j : Json) : Option Normalization := do
  match ← record? ["half_window", "alpha", "beta", "k"] j with
  | [half, alpha, beta, k] =>
    return ⟨← size? half, ← single? alpha, ← single? beta, ← single? k⟩
  | _ => none

end Normalization

namespace Descent

def fieldNames : List String :=
  ["learning_rate", "momentum", "l1_decay", "l2_decay", "batch_size"]

def toJson (p : Descent) : Json :=
  record [("learning_rate", ofSingle p.learningRate), ("momentum", ofSingle p.momentum),
    ("l1_decay", ofSingle p.l1Decay), ("l2_decay", ofSingle p.l2Decay),
    ("batch_size", ofNat p.batchSize)]

def ofJson? (j : Json) : Option Descent := do
  match ← record? fieldNames j with
  | [rate, momentum, l1, l2, batch] =>
    return ⟨← single? rate, ← single? momentum, ← single? l1, ← single? l2, ← size? batch⟩
  | _ => none

end Descent

namespace Opcode

def toJson : Opcode → Json
  | alloc => ofString "AllocActivation"
  | dealloc => ofString "DeallocActivation"
  | view => ofString "TensorView"
  | copy => ofString "Copy"
  | splat value => variant "Splat" (record [("value", ofSingle value)])
  | binary op => variant "ElementwiseBinary" (ofString op.name)
  | unary op => variant "ElementwiseUnary" (ofString op.name)
  | reluGrad => ofString "ReluGrad"
  | conv p => variant "Convolution" p.toJson
  | convGrad p => variant "ConvolutionGrad" p.toJson
  | maxPool w => variant "MaxPool" w.toJson
  | maxPoolGrad w => variant "MaxPoolGrad" w.toJson
  | fullyConnected => ofString "FullyConnected"
  | fullyConnectedGrad => ofString "FullyConnectedGrad"
  | softMax => ofString "SoftMax"
  | softMaxGrad => ofString "SoftMaxGrad"
  | normalization p => variant "LocalResponseNormalization" p.toJson
  | normalizationGrad p => variant "LocalResponseNormalizationGrad" p.toJson
  | batchedMatMul => ofString "BatchedMatMul"
  | batchedReduce => variant "BatchedReduce" (ofString "Add")
  | batched op => variant "BatchedArithmetic" (ofString op.name)
  | transpose perm => variant "Transpose" (record [("perm", .array (perm.map ofNat))])
  | sgd p => variant "Sgd" p.toJson

/-- The operations that take no parameter. -/
def plainOfName? : String → Option Opcode
  | "AllocActivation" => some .alloc
  | "DeallocActivation" => some .dealloc
  | "TensorView" => some .view
  | "Copy" => some .copy
  | "ReluGrad" => some .reluGrad
  | "FullyConnected" => some .fullyConnected
  | "FullyConnectedGrad" => some .fullyConnectedGrad
  | "SoftMax" => some .softMax
  | "SoftMaxGrad" => some .softMaxGrad
  | "BatchedMatMul" => some .batchedMatMul
  | _ => none

/-- The only way to reduce a batch is to add. -/
def reduceOfJson? (j : Json) : Option Opcode := do
  match ← variant? j with
  | ("Add", arg) => if isUnit arg then some .batchedReduce else none
  | _ => none

/-- The operations that take a parameter. -/
def parametricOfName? (name : String) (arg : Json) : Option Opcode :=
  match name with
  | "Splat" => do
    match ← record? ["value"] arg with
    | [value] => return .splat (← single? value)
    | _ => none
  | "ElementwiseBinary" => (BinaryOp.ofJson? arg).map .binary
  | "ElementwiseUnary" => (UnaryOp.ofJson? arg).map .unary
  | "Convolution" => (Convolution.ofJson? arg).map .conv
  | "ConvolutionGrad" => (Convolution.ofJson? arg).map .convGrad
  | "MaxPool" => (Window.ofJson? arg).map .maxPool
  | "MaxPoolGrad" => (Window.ofJson? arg).map .maxPoolGrad
  | "LocalResponseNormalization" => (Normalization.ofJson? arg).map .normalization
  | "LocalResponseNormalizationGrad" => (Normalization.ofJson? arg).map .normalizationGrad
  | "BatchedReduce" => reduceOfJson? arg
  | "BatchedArithmetic" => (BatchOp.ofJson? arg).map .batched
  | "Transpose" => do
    match ← record? ["perm"] arg with
    | [perm] => return .transpose (← perm.list? size?)
    | _ => none
  | "Sgd" => (Descent.ofJson? arg).map .sgd
  | _ => none

def ofJson? (j : Json) : Option Opcode := do
  let (name, arg) ← variant? j
  match plainOfName? name, arg with
  | some op, arg => if isUnit arg then some op else none
  | none, some arg => parametricOfName? name arg
  | none, none => none

end Opcode

namespace Instruction

def toJson (i : Instruction) : Json :=
  record [("op", i.op.toJson), ("operands", .array (i.operands.map (·.toJson)))]

def ofJson? (j : Json) : Option Instruction := do
  match ← record? ["op", "operands"] j with
  | [op, operands] => return ⟨← Opcode.ofJson? op, ← operands.list? Operand.ofJson?⟩
  | _ => none

end Instruction

namespace LiveRange

def toJson (r : LiveRange) : Json := record [("start", ofNat r.start), ("end", ofNat r.stop)]

def ofJson? (j : Json) : Option LiveRange := do
  match ← record? ["start", "end"] j with
  | [start, stop] => return ⟨← size? start, ← size? stop⟩
  | _ => none

end LiveRange

namespace Slot

def toJson (s : Slot) : Json :=
  record [("id", ofNat s.id), ("elem", s.kind.toJson), ("len", ofNat s.len),
    ("byte_offset", ofNat s.offset), ("byte_len", ofNat s.bytes)]

def ofJson? (j : Json) : Option Slot := do
  match ← record? ["id", "elem", "len", "byte_offset", "byte_len"] j with
  | [id, kind, len, offset, bytes] =>
    return ⟨← size? id, ← ElementKind.ofJson? kind, ← size? len, ← size? offset, ← size? bytes⟩
  | _ => none

end Slot

namespace IdMap

/-- An object whose keys are the ids in quotes, ascending. -/
def toJson {β : Type} (item : β → Json) (m : IdMap β) : Json :=
  .object (m.entries.map fun (i, b) => (Nat.toDigits 10 i, item b))

def ofJson? {β : Type} (item? : Json → Option β) (j : Json) : Option (IdMap β) :=
  (j.idMap? item?).map ofList

end IdMap

namespace Plan

def toJson (p : Plan) : Json :=
  record [("live_ranges", p.liveRanges.toJson (·.toJson)),
    ("assignments", p.assignments.toJson ofNat), ("view_roots", p.viewRoots.toJson ofNat),
    ("slots", .array (p.slots.map (·.toJson))), ("total_bytes", ofNat p.totalBytes)]

def ofJson? (j : Json) : Option Plan := do
  match ← record? ["live_ranges", "assignments", "view_roots", "slots", "total_bytes"] j with
  | [ranges, assignments, roots, slots, bytes] =>
    return {
      liveRanges := ← IdMap.ofJson? LiveRange.ofJson? ranges
      assignments := ← IdMap.ofJson? size? assignments
      viewRoots := ← IdMap.ofJson? id? roots
      slots := ← slots.list? Slot.ofJson?
      totalBytes := ← size? bytes }
  | _ => none

end Plan

namespace Artifact

def toJson (a : Artifact) : Json :=
  record [("name", ofString a.name), ("buffers", .array (a.buffers.map (·.toJson))),
    ("instructions", .array (a.instructions.map (·.toJson))), ("plan", a.plan.toJson)]

def ofJson? (j : Json) : Option Artifact := do
  match ← record? ["name", "buffers", "instructions", "plan"] j with
  | [name, buffers, instructions, plan] =>
    return {
      name := ← name.string?
      buffers := ← buffers.list? Buffer.ofJson?
      instructions := ← instructions.list? Instruction.ofJson?
      plan := ← Plan.ofJson? plan }
  | _ => none

/-- The text an artifact is saved as. -/
def jsonText (a : Artifact) : String := String.ofList (a.toJson.pretty 0)

/-- The artifact saved in a text. -/
def ofJsonText? (text : String) : Option Artifact := (Json.ofText? text).bind ofJson?

end Artifact

end TensorCompiler
