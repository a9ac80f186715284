import TensorCompiler.Number.Decimal

/-!
Decimals read by scaling: the digits are rounded to double precision, multiplied or divided by a
rounded power of ten, and the result is rounded again. So the result can be a neighbour of the
nearest number, and a decimal whose product leaves double precision is refused. A whole number is
rounded only once (`scaled?_of_whole`).
-/

namespace TensorCompiler

namespace Decimal

/-- The largest power of ten in double precision is `10 ^ 308`. -/
def maxPower : Nat := 308

/-- The double-precision pattern of `10 ^ n`. -/
def powerOfTen (n : Nat) : Nat := BinaryFormat.double.ofNat (Nat.pow 10 n)

/-- A double-precision pattern times `10 ^ n`, unless that is too large. -/
def timesPower? (pattern n : Nat) : Option Nat :=
  if pattern = 0 then some 0
  else if maxPower < n then none
  else
    let p := BinaryFormat.double.product pattern (powerOfTen n)
    if p < BinaryFormat.double.infinity then some p else none

/-- A double-precision pattern divided by `10 ^ n`, in steps of the largest power and a rest. -/
def overPower (pattern n : Nat) : Nat :=
  if pattern = 0 then 0
  else if n ≤ maxPower then BinaryFormat.double.quotient pattern (powerOfTen n)
  else overPower (BinaryFormat.double.quotient pattern (powerOfTen maxPower)) (n - maxPower)
termination_by n
decreasing_by simp only [maxPower] at *; omega

/-- The double-precision pattern of a decimal, read by scaling its rounded digits. -/
def scaled? (d : Decimal) : Option Nat :=
  let significand := BinaryFormat.double.ofNat d.digits
  match d.exponent with
  | .ofNat n => timesPower? significand n
  | .negSucc n => some (overPower significand (n + 1))

theorem scaled?_of_whole {d : Decimal} (h : d.exponent = 0)
    (hd : BinaryFormat.double.ofNat d.digits < BinaryFormat.double.infinity) :
    d.scaled? = some (BinaryFormat.double.ofNat d.digits) := by
  have hone : BinaryFormat.double.units (powerOfTen 0) = Nat.pow 2 BinaryFormat.double.scale := by
    decide +kernel
  simp only [scaled?, h]
  show timesPower? _ 0 = _
  rw [timesPower?, BinaryFormat.product_one .double (by decide) (Nat.le_of_lt hd) hone]
  split
  · next hz => rw [hz]
  · simp [maxPower, hd]

end Decimal

/-- A signed decimal, read by scaling in double precision and then rounded to single precision. -/
def Single.ofDecimal? (negative : Bool) (d : Decimal) : Option Single :=
  d.scaled?.map fun p => ofPattern negative (BinaryFormat.double.convert .single p)

end TensorCompiler
