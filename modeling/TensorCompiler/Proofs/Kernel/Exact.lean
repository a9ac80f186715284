import TensorCompiler.Number.Scalar
import Mathlib.Algebra.Field.Rat
import Mathlib.Algebra.Order.Ring.Rat
import Mathlib.Tactic.NormNum.Pow

/-!
The kernels over exact rationals. `Exact I` is the field of rationals with the operations of a
`Scalar`, so every kernel runs on it as it runs on single-precision numbers; `I` gives the functions
that a field does not have.
-/

namespace TensorCompiler

/-- The number that a finite pattern stands for. -/
def Single.value (x : Single) : ℚ :=
  if x.isFinite then (if x.isNegative then -1 else 1) * (x.units / 2 ^ 149) else 0

theorem Single.value_zero : (0 : Single).value = 0 := by
  have hunits : (0 : Single).units = 0 := by decide
  simp [Single.value, hunits]

theorem Single.value_one : (1 : Single).value = 1 := by
  have hunits : (1 : Single).units = 2 ^ 149 := by decide
  have hfinite : (1 : Single).isFinite = true := by decide
  have hpositive : (1 : Single).isNegative = false := by decide
  simp only [Single.value, hunits, hfinite, hpositive]
  norm_num

/-- Arbitrary functions in the place of those that are not rational; `probability` gives the
element of a softmax row at a position. -/
structure Interpretation where
  sigmoid : ℚ → ℚ
  tanh : ℚ → ℚ
  probability : List ℚ → Nat → ℚ
  power : ℚ → ℚ → ℚ

/-- The rationals, with the functions of an interpretation. -/
def Exact (_ : Interpretation) : Type := ℚ

variable {I : Interpretation}

namespace Exact

instance : Field (Exact I) := inferInstanceAs (Field ℚ)

instance : LinearOrder (Exact I) := inferInstanceAs (LinearOrder ℚ)

/-! The field and the `Scalar` below both give the operations; of the two, the field's are found. -/

instance (priority := 1100) : Zero (Exact I) := inferInstance
instance (priority := 1100) : One (Exact I) := inferInstance
instance (priority := 1100) : Add (Exact I) := inferInstance
instance (priority := 1100) : Sub (Exact I) := inferInstance
instance (priority := 1100) : Mul (Exact I) := inferInstance
instance (priority := 1100) : Div (Exact I) := inferInstance
instance (priority := 1100) : Neg (Exact I) := inferInstance
instance (priority := 1100) : LT (Exact I) := inferInstance

instance : Scalar (Exact I) where
  toZero := inferInstance
  toOne := inferInstance
  toAdd := inferInstance
  toSub := inferInstance
  toMul := inferInstance
  toDiv := inferInstance
  toNeg := inferInstance
  toLT := inferInstance
  decidableLT := inferInstance
  ofSingle x := x.value
  ofNat n := (n : ℚ)
  sigmoid := I.sigmoid
  tanh := I.tanh
  softmax row := (List.range row.length).map (I.probability row)
  power := I.power

theorem ofSingle_zero : (Scalar.ofSingle 0 : Exact I) = 0 := Single.value_zero

theorem ofSingle_one : (Scalar.ofSingle 1 : Exact I) = 1 := Single.value_one

end Exact

end TensorCompiler
