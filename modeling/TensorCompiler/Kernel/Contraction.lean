import TensorCompiler.Kernel.Access

/-!
Contractions: kernels whose outputs are a bias element plus a sum of products of an input and a
filter element. A contraction is the list of its outputs, each with its bias index and taps; the
value of the kernel (`apply`) and the gradients of its three operands are read off that one list.
-/

namespace TensorCompiler.Kernel

/-- One output: where its start value is in the bias, and which products it adds. -/
structure Cell where
  bias : Nat
  taps : List Tap
deriving DecidableEq, Repr

abbrev Contraction := List Cell

namespace Contraction

/-- Every index is inside payloads of the given sizes. -/
def inside (c : Contraction) (left right bias : Nat) : Bool :=
  c.all fun cell => cell.bias < bias && Kernel.inside left right cell.taps

section

variable {α : Type} [Zero α] [Add α] [Mul α]

def apply (c : Contraction) (x y bias : Array α) : Array α :=
  (c.map fun cell => dot x y (bias.getD cell.bias 0) cell.taps).toArray

/-- Each cell with the gradient of its output. -/
def paired (c : Contraction) (g : Array α) : List (Cell × α) := c.zip g.toList

/-- The gradient of the left operand: each product's right factor times the output's gradient. -/
def leftGradient (c : Contraction) (size : Nat) (y g : Array α) : Array α :=
  scatter size <| (c.paired g).flatMap fun p => p.1.taps.map fun t => (t.1, y.getD t.2 0 * p.2)

/-- The gradient of the right operand: each product's left factor times the output's gradient. -/
def rightGradient (c : Contraction) (size : Nat) (x g : Array α) : Array α :=
  scatter size <| (c.paired g).flatMap fun p => p.1.taps.map fun t => (t.2, x.getD t.1 0 * p.2)

/-- The gradient of the bias: the gradients of the outputs that start at each element. -/
def biasGradient (c : Contraction) (size : Nat) (g : Array α) : Array α :=
  scatter size <| (c.paired g).map fun p => (p.1.bias, p.2)

end

theorem size_apply {α : Type} [Zero α] [Add α] [Mul α] (c : Contraction) (x y bias : Array α) :
    (c.apply x y bias).size = c.length := by
  simp [apply]

end Contraction

end TensorCompiler.Kernel
