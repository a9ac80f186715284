import TensorCompiler.Random.Keystream
import TensorCompiler.Tensor.Basic

/-!
Initial weights: samples of a symmetric uniform range whose width falls with the number of inputs
that feed one output.
-/

namespace TensorCompiler.Random

/-- `1 - 2 ^ -23`, the largest sample before scaling. -/
def largestUnit : Single := ⟨0x3f7ffffe⟩

/-- Lowers `scale` one bit pattern at a time until the largest sample stays within `bound`. -/
def shrink (bound : Single) : Nat → Single → Single
  | 0, scale => scale
  | fuel + 1, scale =>
    if bound < scale * largestUnit + -bound then shrink bound fuel ⟨scale.bits - 1⟩ else scale

/-- The width of the closed range from `-bound` to `bound`. -/
def width (bound : Single) : Single :=
  let scale := (bound - -bound) / largestUnit
  shrink bound scale.bits.toNat scale

/-- The sample that a random word gives: its upper 23 bits as a fraction. -/
def sample (bound scale : Single) (word : UInt32) : Single :=
  (Single.mk ((0x3f800000 : UInt32) ||| (word >>> 9)) - 1) * scale + -bound

/-- The bound for weights with `fanIn` inputs per output. -/
def xavierBound (fanIn : Nat) : Single :=
  .ofFloat (Single.mk 0x40400000 / .ofNat (max fanIn 1)).float.sqrt

/-- A float tensor of samples, and the generator after it. -/
def xavier (shape : Shape) (fanIn : Nat) (g : Generator) : Tensor Single × Generator :=
  let bound := xavierBound fanIn
  let scale := width bound
  let values := ((g.take shape.elements).1.map (sample bound scale)).toArray
  (.floats ⟨shape, values, .inl (by simp [values, Generator.take])⟩, (g.take shape.elements).2)

end TensorCompiler.Random
