import TensorCompiler.Number.Single
import TensorCompiler.Operator.Window
import TensorCompiler.Tensor.Kind

/-!
The operators of a computation graph and their parameters. Operands come in a fixed order:
a layer's input, its filter or weights, its bias; for a gradient operator the forward operands and
then the gradient of the output; for `sgd` the gradient and then the weight.
-/

namespace TensorCompiler

/-- A variable or a placeholder of a module. -/
inductive StorageRef where
  | var (id : Nat)
  | placeholder (id : Nat)
deriving DecidableEq, Repr

namespace StorageRef

def text : StorageRef → String
  | var id => "var#" ++ Nat.repr id
  | placeholder id => "placeholder#" ++ Nat.repr id

/-- Variables come before placeholders, each in order of their numbers. -/
def le : StorageRef → StorageRef → Bool
  | var i, var j => i ≤ j
  | var _, placeholder _ => true
  | placeholder _, var _ => false
  | placeholder i, placeholder j => i ≤ j

end StorageRef

inductive BinaryOp where
  | add
  | sub
  | mul
deriving DecidableEq, Repr

inductive UnaryOp where
  | relu
  | sigmoid
  | tanh
deriving DecidableEq, Repr

/-- How a slice is combined with every entry of a batch. -/
inductive BatchOp where
  | add
  | mul
deriving DecidableEq, Repr

/-- Convolution of an NHWC input with `depth` square filters. -/
structure Convolution extends Window where
  depth : Nat
deriving DecidableEq, Repr

/-- Normalization over neighbouring channels: each element times
`(k + alpha / window * sum of squares) ^ -beta`. -/
structure Normalization where
  halfWindow : Nat
  alpha : Single
  beta : Single
  k : Single
deriving DecidableEq, Repr

/-- Two channels on each side, `alpha` 0.0001, `beta` 0.75, `k` 2. -/
def Normalization.standard : Normalization := ⟨2, ⟨0x38d1b717⟩, ⟨0x3f400000⟩, ⟨0x40000000⟩⟩

/-- The settings of gradient descent. -/
structure Descent where
  learningRate : Single
  momentum : Single
  l1Decay : Single
  l2Decay : Single
  batchSize : Nat
deriving DecidableEq, Repr

/-- The operators of a graph node. -/
inductive Operator where
  | binary (op : BinaryOp)
  | unary (op : UnaryOp)
  | splat (value : Single) (type : TensorType)
  | reshape (shape : Shape)
  | transpose (perm : List Nat)
  | conv (p : Convolution)
  | maxPool (w : Window)
  | fullyConnected
  | softMax
  | normalization (p : Normalization)
  | regression
  | batchedMatMul
  | batchedReduce
  | batched (op : BatchOp)
  | save (destination : StorageRef)
  | sgd (p : Descent)
  | reluGrad
  | convGrad (p : Convolution)
  | maxPoolGrad (w : Window)
  | fullyConnectedGrad
  | softMaxGrad
  | normalizationGrad (p : Normalization)
deriving DecidableEq, Repr

namespace Operator

/-- The operator's label in dumps and messages. -/
def name : Operator → String
  | binary .add => "Add"
  | binary .sub => "Sub"
  | binary .mul => "Mul"
  | unary .relu => "Relu"
  | unary .sigmoid => "Sigmoid"
  | unary .tanh => "Tanh"
  | splat .. => "Splat"
  | reshape _ => "Reshape"
  | transpose _ => "Transpose"
  | conv _ => "Conv"
  | maxPool _ => "MaxPool"
  | fullyConnected => "FullyConnected"
  | softMax => "SoftMax"
  | normalization _ => "LocalResponseNormalization"
  | regression => "Regression"
  | batchedMatMul => "BatchedMatMul"
  | batchedReduce => "BatchedReduce"
  | batched _ => "BatchedArithmetic"
  | save _ => "Save"
  | sgd _ => "Sgd"
  | reluGrad => "ReluGrad"
  | convGrad _ => "ConvGrad"
  | maxPoolGrad _ => "MaxPoolGrad"
  | fullyConnectedGrad => "FullyConnectedGrad"
  | softMaxGrad => "SoftMaxGrad"
  | normalizationGrad _ => "LocalResponseNormalizationGrad"

/-- Sinks have no results and stay alive without consumers. -/
def isSink : Operator → Bool
  | save _ | sgd _ => true
  | _ => false

/-- Losses take the gradient of their input from a label operand. -/
def isLoss : Operator → Bool
  | softMax | regression => true
  | _ => false

/-- How many operands the operator takes. -/
def arity : Operator → Nat
  | splat .. => 0
  | unary _ | reshape _ | transpose _ | maxPool _ | normalization _ | batchedReduce | save _ => 1
  | binary _ | softMax | regression | batchedMatMul | batched _ | sgd _ | reluGrad | maxPoolGrad _
  | softMaxGrad | normalizationGrad _ => 2
  | conv _ | fullyConnected | convGrad _ | fullyConnectedGrad => 3

end Operator

end TensorCompiler
