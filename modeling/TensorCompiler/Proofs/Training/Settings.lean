import Mathlib
import TensorCompiler.Proofs.Checks
import TensorCompiler.Training.Settings

/-!
What valid settings say about numbers. A rate is finite because the check asks for it, and a momentum
because it compares with zero and one; a decay may be infinite, or no number at all, as the check only
refuses what is less than zero.
-/

namespace TensorCompiler

open Float.Model

/-- To arithmetic there are only three numbers that are not finite: no payload is left. -/
theorem Single.float_of_not_finite {x : Single} (h : x.isFinite = false) :
    x.float = infinity.float ∨ x.float = negInfinity.float ∨ x.float = nan.float := by
  have hexponent : @UnpackedFloat.unpackExponent .binary32 x.bits.toBitVec = -1#8 := by
    have hle : 0x7f800000 ≤ x.bits.toNat % 0x80000000 := Nat.not_lt.1 (of_decide_eq_false h)
    have hlt : x.bits.toNat < 0x100000000 := x.bits.toNat_lt
    apply BitVec.eq_of_toNat_eq
    simp [UnpackedFloat.unpackExponent, Nat.shiftRight_eq_div_pow]
    omega
  have hunpack : (∃ sign, UnpackedFloat.unpack .binary32 x.bits.toBitVec = .infinity sign) ∨
      UnpackedFloat.unpack .binary32 x.bits.toBitVec = .notANumber := by
    simp only [UnpackedFloat.unpack]
    rw [if_pos hexponent]
    split
    · exact .inl ⟨_, rfl⟩
    · exact .inr rfl
  simp only [float, Float32.ofBits, Float32.Model.ofBits]
  rcases hunpack with ⟨sign, hsign⟩ | hnan
  · rw [hsign]
    cases sign with
    | positive => exact .inl rfl
    | negative => exact .inr (.inl rfl)
  · rw [hnan]
    exact .inr (.inr rfl)

namespace Descent

variable {settings : Descent}

theorem finite_of_isFraction {x : Single} (h : isFraction x = true) : x.isFinite = true := by
  have hcongr {y : Single} (hxy : x.float = y.float) : isFraction x = isFraction y := by
    simp only [isFraction, LT.lt, BEq.beq, hxy]
  by_contra hx
  have hno : isFraction .infinity = false ∧ isFraction .negInfinity = false ∧
      isFraction .nan = false := by decide
  rcases Single.float_of_not_finite (Bool.eq_false_iff.2 hx) with hx | hx | hx
  · simp [hcongr hx, hno] at h
  · simp [hcongr hx, hno] at h
  · simp [hcongr hx, hno] at h

theorem finite_of_check (h : settings.check = .ok ()) :
    settings.learningRate.isFinite = true ∧ settings.momentum.isFinite = true := by
  simp only [check, ite_ok_iff, reduceCtorEq, and_false, false_or, Bool.not_eq_true,
    Bool.not_eq_false'] at h
  exact ⟨h.1, finite_of_isFraction h.2.1⟩

end Descent

end TensorCompiler
