import TensorCompiler.Number.Single

/-!
The numbers that kernels compute with. Kernels are written once over any `Scalar`, so that the
same loops run on single-precision values and can be read over an exact field.
-/

namespace TensorCompiler

/-- Arithmetic of tensor elements. The operations that a field cannot give (`sigmoid`, `tanh`, the
probabilities of a softmax row, real powers) are fields of their own. -/
class Scalar (α : Type) extends Zero α, One α, Add α, Sub α, Mul α, Div α, Neg α, LT α where
  decidableLT : DecidableLT α
  ofSingle : Single → α
  ofNat : Nat → α
  sigmoid : α → α
  tanh : α → α
  softmax : List α → List α
  power : α → α → α

instance Scalar.instDecidableLT {α : Type} [Scalar α] : DecidableLT α := Scalar.decidableLT

/-- The sum of a list, in order. It starts at `-0`, the zero that changes nothing it is added to: so
a sum of negative zeros is a negative zero. -/
def Scalar.total {α : Type} [Zero α] [Neg α] [Add α] (values : List α) : α :=
  values.foldl (· + ·) (-0)

namespace Single

/-- The larger of two numbers; a not-a-number gives way to the other. -/
def larger (x y : Single) : Single :=
  if x.isNaN then y else if x < y then y else x

/-- Probabilities proportional to the exponentials, with the row's maximum taken off first. -/
def softmaxRow (row : List Single) : List Single :=
  let top := row.foldl larger negInfinity
  let exps := row.map fun x => ofFloat (x - top).float.exp
  let total := Scalar.total exps
  exps.map (· / total)

instance : Scalar Single where
  decidableLT := inferInstance
  ofSingle x := x
  ofNat := ofNat
  sigmoid x := 1 / (1 + ofFloat (-x).float.exp)
  tanh x := ofFloat x.float.tanh
  softmax := softmaxRow
  power x y := ofFloat (x.float.pow y.float)

end Single

end TensorCompiler
