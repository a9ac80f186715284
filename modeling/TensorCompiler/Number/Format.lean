/-!
Binary floating-point formats in exact natural arithmetic. A magnitude is a natural number of
`units`, the smallest positive value of the format, and a `pattern` is the magnitude part of the
bits (exponent field above fraction field), so patterns are ordered as the values are.
`round_units` says that rounding an exactly representable value gives its pattern back. Arithmetic
on patterns is exact arithmetic on units, rounded once.
-/

namespace TensorCompiler

/-- A binary format: the number of significant bits, and the pattern of infinity. The value of one
unit is `2 ^ -scale`. -/
structure BinaryFormat where
  precision : Nat
  infinity : Nat
  scale : Nat
deriving DecidableEq, Repr

namespace BinaryFormat

/-- Single precision: 24 significant bits, units of `2 ^ -149`. -/
def single : BinaryFormat := ⟨24, 0x7f800000, 149⟩

/-- Double precision: 53 significant bits, units of `2 ^ -1074`. -/
def double : BinaryFormat := ⟨53, 0x7ff0000000000000, 1074⟩

/-- The quotient to the nearest integer, a half to the even neighbour. -/
def divNearest (num den : Nat) : Nat :=
  let q := num / den
  let r := num % den
  if 2 * r < den then q
  else if den < 2 * r then q + 1
  else q + q % 2

/-- The number of units that a finite pattern stands for. -/
def units (f : BinaryFormat) (pattern : Nat) : Nat :=
  let half := Nat.pow 2 (f.precision - 1)
  let exponent := pattern / half
  if exponent = 0 then pattern
  else (half + pattern % half) * Nat.pow 2 (exponent - 1)

/-- The pattern nearest to `num / den` units, ties to even; past the largest value, infinity.
A significand that carries runs over into the exponent field, which is the right pattern. -/
def round (f : BinaryFormat) (num den : Nat) : Nat :=
  let q := num / den
  let shift := if q = 0 then 0 else (q.log2 + 1) - f.precision
  min f.infinity
    (shift * Nat.pow 2 (f.precision - 1) + divNearest num (den * Nat.pow 2 shift))

/-- The pattern nearest to a natural number. -/
def ofNat (f : BinaryFormat) (n : Nat) : Nat := f.round (n * Nat.pow 2 f.scale) 1

/-- The pattern nearest to the product of two finite patterns. -/
def product (f : BinaryFormat) (p q : Nat) : Nat :=
  f.round (f.units p * f.units q) (Nat.pow 2 f.scale)

/-- The pattern nearest to the quotient of two finite patterns, the second not 0. -/
def quotient (f : BinaryFormat) (p q : Nat) : Nat :=
  f.round (f.units p * Nat.pow 2 f.scale) (f.units q)

/-- The pattern of `g` nearest to a pattern of `f`. -/
def convert (f g : BinaryFormat) (pattern : Nat) : Nat :=
  if f.infinity ≤ pattern then g.infinity
  else g.round (f.units pattern * Nat.pow 2 g.scale) (Nat.pow 2 f.scale)

theorem divNearest_mul (n : Nat) {d : Nat} (hd : 0 < d) : divNearest (n * d) d = n := by
  simp [divNearest, Nat.mul_div_cancel n hd, hd]

/-- Rounding a value of the format changes nothing, whatever fraction it is written as. -/
theorem round_units (f : BinaryFormat) (hf : 0 < f.precision) {p d : Nat} (hp : p ≤ f.infinity)
    (hd : 0 < d) : f.round (f.units p * d) d = p := by
  have hhalf : 0 < 2 ^ (f.precision - 1) := Nat.two_pow_pos _
  simp only [round, units, Nat.pow_eq]
  by_cases he : p / 2 ^ (f.precision - 1) = 0
  · have hlt : p < 2 ^ (f.precision - 1) := (Nat.div_eq_zero_iff_lt hhalf).1 he
    have hshift : (if p = 0 then 0 else p.log2 + 1 - f.precision) = 0 := by
      split
      · rfl
      · next h =>
        have := (Nat.log2_lt h).2 hlt
        omega
    simp only [he, if_true, Nat.mul_div_cancel _ hd, hshift, Nat.zero_mul, Nat.zero_add,
      Nat.pow_zero, Nat.mul_one, divNearest_mul _ hd]
    omega
  · generalize hh : 2 ^ (f.precision - 1) = half at *
    have hp' : half * (p / half) + p % half = p := Nat.div_add_mod p half
    have hr : p % half < half := Nat.mod_lt _ hhalf
    obtain ⟨e, hediv⟩ : ∃ e, p / half = e := ⟨_, rfl⟩
    obtain ⟨r, hrmod⟩ : ∃ r, p % half = r := ⟨_, rfl⟩
    rw [hrmod] at hr
    rw [hediv, hrmod] at hp'
    rw [hediv] at he
    have hq : (half + r) * 2 ^ (e - 1) ≠ 0 :=
      Nat.mul_ne_zero (by omega) (Nat.pos_iff_ne_zero.1 (Nat.two_pow_pos _))
    have hlog : ((half + r) * 2 ^ (e - 1)).log2 = f.precision - 1 + (e - 1) := by
      refine (Nat.log2_eq_iff hq).2 ⟨?_, ?_⟩
      · rw [Nat.pow_add, hh]
        exact Nat.mul_le_mul_right _ (by omega)
      · rw [show f.precision - 1 + (e - 1) + 1 = f.precision - 1 + 1 + (e - 1) by omega,
          Nat.pow_add, Nat.pow_succ, hh]
        exact Nat.mul_lt_mul_of_pos_right (by omega) (Nat.two_pow_pos _)
    have hs : f.precision - 1 + (e - 1) + 1 - f.precision = e - 1 := by omega
    simp only [hediv, hrmod, he, if_false, Nat.mul_div_cancel _ hd, hq, hlog, hs]
    rw [Nat.mul_assoc, Nat.mul_comm (2 ^ _) d,
      divNearest_mul _ (Nat.mul_pos hd (Nat.two_pow_pos _))]
    have h1 : (e - 1) * half + half = half * e := by
      rw [← Nat.succ_mul, Nat.mul_comm]; congr 1; omega
    omega

theorem units_pos (f : BinaryFormat) {p : Nat} (hp : 0 < p) : 0 < f.units p := by
  simp only [units, Nat.pow_eq]
  have := Nat.two_pow_pos (f.precision - 1)
  split
  · exact hp
  · exact Nat.mul_pos (by omega) (Nat.two_pow_pos _)

/-- A pattern whose exponent field is below `k + 1` has less than `2 ^ (precision + k)` units. -/
theorem units_lt (f : BinaryFormat) {p k : Nat}
    (hp : p < (k + 1) * Nat.pow 2 (f.precision - 1)) : f.units p < Nat.pow 2 (f.precision + k) := by
  rw [Nat.pow_eq] at hp ⊢
  have hhalf := Nat.two_pow_pos (f.precision - 1)
  have he := (Nat.div_lt_iff_lt_mul hhalf).2 hp
  have hr := Nat.mod_lt p hhalf
  have hzero := Nat.div_eq_zero_iff_lt (x := p) hhalf
  simp only [units, Nat.pow_eq]
  generalize p / 2 ^ (f.precision - 1) = e at he hzero ⊢
  generalize p % 2 ^ (f.precision - 1) = r at hr ⊢
  split
  · next h =>
    have := hzero.1 h
    have := Nat.pow_le_pow_right (n := 2) (by decide)
      (show f.precision - 1 ≤ f.precision + k by omega)
    omega
  · calc (2 ^ (f.precision - 1) + r) * 2 ^ (e - 1)
        ≤ (2 ^ (f.precision - 1) + r) * 2 ^ (k - 1) :=
          Nat.mul_le_mul_left _ (Nat.pow_le_pow_right (by decide) (by omega))
      _ < (2 ^ (f.precision - 1) * 2) * 2 ^ (k - 1) :=
          Nat.mul_lt_mul_of_pos_right (by omega) (Nat.two_pow_pos _)
      _ = 2 ^ (f.precision - 1 + 1 + (k - 1)) := by rw [Nat.pow_add, Nat.pow_succ]
      _ ≤ 2 ^ (f.precision + k) := Nat.pow_le_pow_right (by decide) (by omega)

/-- Multiplication by 1 is exact. -/
theorem product_one (f : BinaryFormat) (hf : 0 < f.precision) {p q : Nat} (hp : p ≤ f.infinity)
    (hq : f.units q = Nat.pow 2 f.scale) : f.product p q = p := by
  rw [product, hq, Nat.pow_eq]
  exact round_units f hf hp (Nat.two_pow_pos _)

end BinaryFormat

end TensorCompiler
