import TensorCompiler.Kernel.Access
import TensorCompiler.Operator.Basic

/-!
Kernels that work element by element, or slice by slice along the batch axis.
-/

namespace TensorCompiler

variable {α : Type} [Scalar α]

def BinaryOp.apply : BinaryOp → α → α → α
  | .add => (· + ·)
  | .sub => (· - ·)
  | .mul => (· * ·)

/-- Negative numbers and not-a-numbers become 0. -/
def Scalar.positivePart (x : α) : α := if 0 < x then x else 0

/-- The sign of a number: 1, -1, or 0. -/
def Scalar.sign (x : α) : α := if 0 < x then 1 else if x < 0 then -1 else 0

def UnaryOp.apply : UnaryOp → α → α
  | .relu => Scalar.positivePart
  | .sigmoid => Scalar.sigmoid
  | .tanh => Scalar.tanh

def BatchOp.apply : BatchOp → α → α → α
  | .add => (· + ·)
  | .mul => (· * ·)

namespace Kernel

def binary (op : BinaryOp) (x y : Shaped α) : Except KernelFault (Array α) :=
  if x.values.size = y.values.size then
    .ok (Array.zipWith op.apply x.values y.values)
  else .error .elementwiseSizes

def unary (op : UnaryOp) (x : Shaped α) : Array α := x.values.map op.apply

/-- The gradient passes where the forward output was positive. -/
def reluGrad (output grad : Shaped α) : Array α :=
  Array.zipWith (fun y g => if 0 < y then g else 0) output.values grad.values

/-- Combines every slice of the batch with the same slice. -/
def batched (op : BatchOp) (batch slice : Shaped α) : Except KernelFault (Array α) :=
  let len := slice.values.size
  if len = 0 ∨ batch.values.size % len ≠ 0 then .error .sliceTiling
  else .ok (batch.values.mapIdx fun i x => op.apply x (slice.values.getD (i % len) 0))

/-- One weight, its gradient and its momentum, after a step of gradient descent. -/
def descend (p : Descent) (weight grad momentum : α) : α × α :=
  let rate : α := Scalar.ofSingle p.learningRate
  let step := (Scalar.ofSingle p.l1Decay * Scalar.sign weight + Scalar.ofSingle p.l2Decay * weight + grad)
    / Scalar.ofNat (max p.batchSize 1)
  if 0 < p.momentum then
    let momentum := Scalar.ofSingle p.momentum * momentum - rate * step
    (weight + momentum, momentum)
  else (weight - rate * step, momentum)

/-- The weights and their momentum after a step of gradient descent. -/
def descent (p : Descent) (weight grad momentum : Shaped α) :
    Except KernelFault (Array α × Array α) :=
  if weight.values.size ≠ grad.values.size ∨ weight.values.size ≠ momentum.values.size then
    .error .descentSizes
  else
    let stepped := Array.zipWith (fun w (g, m) => descend p w g m) weight.values
      (grad.values.zip momentum.values)
    .ok (stepped.map (·.1), stepped.map (·.2))

end Kernel

end TensorCompiler
