import TensorCompiler.Number.Format

/-!
Single-precision numbers as their 32 bits, so that every pattern, a not-a-number's payload
included, is carried exactly. Arithmetic and order are those of `Float32`. `finite_or_special`
splits the patterns the way the text formats do.
-/

namespace TensorCompiler

/-- A single-precision number, given by its bits. -/
structure Single where
  bits : UInt32
deriving DecidableEq, Repr, Inhabited

namespace Single

def float (x : Single) : Float32 := Float32.ofBits x.bits

def ofFloat (x : Float32) : Single := ⟨x.toBits⟩

instance : Zero Single := ⟨⟨0⟩⟩
instance : One Single := ⟨⟨0x3f800000⟩⟩
instance : Add Single := ⟨fun x y => ofFloat (x.float + y.float)⟩
instance : Sub Single := ⟨fun x y => ofFloat (x.float - y.float)⟩
instance : Mul Single := ⟨fun x y => ofFloat (x.float * y.float)⟩
instance : Div Single := ⟨fun x y => ofFloat (x.float / y.float)⟩
instance : Neg Single := ⟨fun x => ofFloat (-x.float)⟩
instance : LT Single := ⟨fun x y => x.float < y.float⟩
instance : DecidableLT Single := fun x y => inferInstanceAs (Decidable (x.float < y.float))

/-- Numeric equality: a not-a-number differs from itself, and the two zeros are equal. -/
instance : BEq Single := ⟨fun x y => x.float == y.float⟩

def isNegative (x : Single) : Bool := 0x80000000 ≤ x.bits.toNat

/-- The bits without the sign. -/
def pattern (x : Single) : Nat := x.bits.toNat % 0x80000000

def ofPattern (negative : Bool) (pattern : Nat) : Single :=
  ⟨UInt32.ofNat (pattern + if negative then 0x80000000 else 0)⟩

def infinity : Single := ofPattern false BinaryFormat.single.infinity
def negInfinity : Single := ofPattern true BinaryFormat.single.infinity

/-- The quiet not-a-number without payload. -/
def nan : Single := ⟨0x7fc00000⟩

def isFinite (x : Single) : Bool := x.pattern < BinaryFormat.single.infinity
def isInfinite (x : Single) : Bool := x.pattern = BinaryFormat.single.infinity
def isNaN (x : Single) : Bool := BinaryFormat.single.infinity < x.pattern

/-- The magnitude of a finite number, in units of `2 ^ -149`. -/
def units (x : Single) : Nat := BinaryFormat.single.units x.pattern

/-- The number nearest to a natural number. -/
def ofNat (n : Nat) : Single :=
  ofPattern false (BinaryFormat.single.ofNat n)

/-- Truncation toward zero to a 64-bit integer; out of range the nearest end, and 0 for a
not-a-number. -/
def toIndex (x : Single) : Int64 :=
  if x.isNaN then 0
  else if x.isInfinite then (if x.isNegative then Int64.minValue else Int64.maxValue)
  else
    let magnitude : Nat := x.units / Nat.pow 2 149
    if x.isNegative then Int64.ofInt (max Int64.minValue.toInt (-(magnitude : Int)))
    else Int64.ofInt (min Int64.maxValue.toInt (magnitude : Int))

theorem finite_or_special (x : Single) :
    x.isFinite = true ∨ x.isInfinite = true ∨ x.isNaN = true := by
  simp only [isFinite, isInfinite, isNaN, decide_eq_true_eq]
  omega

theorem ofPattern_pattern (x : Single) : ofPattern x.isNegative x.pattern = x := by
  rcases x with ⟨b⟩
  have hb := b.toNat_lt
  simp only [ofPattern, isNegative, pattern, decide_eq_true_eq, Single.mk.injEq]
  apply UInt32.toNat_inj.1
  rw [UInt32.toNat_ofNat']
  split <;> omega

end Single

end TensorCompiler
