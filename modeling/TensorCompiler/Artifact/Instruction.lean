import TensorCompiler.Operator.Basic

/-!
The instruction set of compiled functions. An instruction names buffers by their number; its
destinations come first, and every operation fixes how each operand is accessed.
-/

namespace TensorCompiler

/-- Where the elements of a buffer live. -/
inductive BufferKind where
  /-- A variable of the module or a placeholder of the context. -/
  | weight (storage : StorageRef)
  /-- A transient value with its own allocation and deallocation. -/
  | activation
  /-- Another buffer's elements under a type of its own. -/
  | view (source : Nat)
  /-- Optimizer state of the compiled function, zero at first. -/
  | state
deriving DecidableEq, Repr

structure Buffer where
  id : Nat
  name : String
  type : TensorType
  kind : BufferKind
deriving DecidableEq, Repr

def Buffer.isActivation (b : Buffer) : Bool := b.kind = .activation

inductive Access where
  | read
  | write
  | readWrite
deriving DecidableEq, Repr

namespace Access

/-- The mark before an operand in dumps. -/
def text : Access → String
  | read => "in"
  | write => "out"
  | readWrite => "inout"

def name : Access → String
  | read => "Read"
  | write => "Write"
  | readWrite => "ReadWrite"

end Access

structure Operand where
  buffer : Nat
  access : Access
deriving DecidableEq, Repr

/-- What an instruction does. -/
inductive Opcode where
  | alloc
  | dealloc
  | view
  | copy
  | splat (value : Single)
  | binary (op : BinaryOp)
  | unary (op : UnaryOp)
  | reluGrad
  | conv (p : Convolution)
  | convGrad (p : Convolution)
  | maxPool (w : Window)
  | maxPoolGrad (w : Window)
  | fullyConnected
  | fullyConnectedGrad
  | softMax
  | softMaxGrad
  | normalization (p : Normalization)
  | normalizationGrad (p : Normalization)
  | batchedMatMul
  | batchedReduce
  | batched (op : BatchOp)
  | transpose (perm : List Nat)
  | sgd (p : Descent)
deriving DecidableEq, Repr

namespace Opcode

def name : Opcode → String
  | alloc => "alloc_activation"
  | dealloc => "dealloc_activation"
  | view => "tensor_view"
  | copy => "copy"
  | splat _ => "splat"
  | binary .add => "element_add"
  | binary .sub => "element_sub"
  | binary .mul => "element_mul"
  | unary .relu => "relu"
  | unary .sigmoid => "sigmoid"
  | unary .tanh => "tanh"
  | reluGrad => "relu_grad"
  | conv _ => "convolution"
  | convGrad _ => "convolution_grad"
  | maxPool _ => "max_pool"
  | maxPoolGrad _ => "max_pool_grad"
  | fullyConnected => "fully_connected"
  | fullyConnectedGrad => "fully_connected_grad"
  | softMax => "softmax"
  | softMaxGrad => "softmax_grad"
  | normalization _ => "local_response_normalization"
  | normalizationGrad _ => "local_response_normalization_grad"
  | batchedMatMul => "batched_matmul"
  | batchedReduce => "batched_reduce_add"
  | batched .add => "batched_add"
  | batched .mul => "batched_mul"
  | transpose _ => "transpose"
  | sgd _ => "sgd"

/-- How each operand is accessed, in order. -/
def signature : Opcode → List Access
  | alloc | dealloc | splat _ => [.write]
  | view | copy | unary _ | maxPool _ | normalization _ | batchedReduce | transpose _ =>
    [.write, .read]
  | binary _ | reluGrad | maxPoolGrad _ | softMax | softMaxGrad | normalizationGrad _
  | batchedMatMul | batched _ => [.write, .read, .read]
  | conv _ | fullyConnected => [.write, .read, .read, .read]
  | convGrad _ | fullyConnectedGrad => [.write, .write, .write, .read, .read, .read]
  | sgd _ => [.readWrite, .read, .readWrite]

/-- Allocations and deallocations mark where an activation lives and compute nothing. -/
def isMarker : Opcode → Bool
  | alloc | dealloc => true
  | _ => false

/-- The single-precision parameters of an operation. -/
def numbers : Opcode → List Single
  | splat value => [value]
  | normalization p | normalizationGrad p => [p.alpha, p.beta, p.k]
  | sgd p => [p.learningRate, p.momentum, p.l1Decay, p.l2Decay]
  | _ => []

end Opcode

structure Instruction where
  op : Opcode
  operands : List Operand
deriving DecidableEq, Repr

namespace Instruction

/-- An instruction that writes `outputs` and reads `inputs`. -/
def ofBuffers (op : Opcode) (outputs inputs : List Nat) : Instruction :=
  ⟨op, outputs.map (⟨·, .write⟩) ++ inputs.map (⟨·, .read⟩)⟩

def buffers (i : Instruction) : List Nat := i.operands.map (·.buffer)

end Instruction

end TensorCompiler
