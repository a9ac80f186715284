import TensorCompiler.Kernel.Addressing
import TensorCompiler.Kernel.Contraction
import TensorCompiler.Operator.Basic

/-!
Sliding-window kernels over NHWC payloads: convolution, its gradients, and max pooling. A window's
taps are listed row by row; those in the padding are left out, so a window may have none.
-/

namespace TensorCompiler.Kernel

/-- The in-image positions of a square window's rows and columns, row by row: kernel row, kernel
column, image row, image column. -/
def windowTaps (w : Window) (height width oy ox : Nat) : List (Nat × Nat × Nat × Nat) :=
  (w.positions height oy).flatMap fun (ky, iy) =>
    (w.positions width ox).map fun (kx, ix) => (ky, kx, iy, ix)

/-- The output of a convolution at flat position `i` of the shape `out`, with its positions in image and
filter modulo `left` and `right`. -/
def convolutionCell (left right : Nat) (p : Convolution) (input filter out : Shape) (i : Nat) :
    Option Cell :=
  match input, coordinates out i with
  | _ :: h :: w :: c :: _, n :: oy :: ox :: d :: _ =>
    some {
      bias := d
      taps := (windowTaps p.toWindow h w oy ox).flatMap fun (ky, kx, iy, ix) =>
        (List.range c).map fun ch =>
          ((position left (axisSteps left input) [n, iy, ix] + ch) % left,
            (position right (axisSteps right filter) [d, ky, kx] + ch) % right) }
  | _, _ => none

/-- The cell by the offsets of pixels in the shapes of image and filter. -/
theorem convolutionCell_eq (left right : Nat) (p : Convolution) (input filter out : Shape) (i : Nat) :
    convolutionCell left right p input filter out i =
      match input, out.unravel i with
      | _ :: h :: w :: c :: _, n :: oy :: ox :: d :: _ =>
        some {
          bias := d
          taps := (windowTaps p.toWindow h w oy ox).flatMap fun (ky, kx, iy, ix) =>
            (List.range c).map fun ch =>
              ((input.offset [n, iy, ix] + ch) % left, (filter.offset [d, ky, kx] + ch) % right) }
      | _, _ => none := by
  simp only [convolutionCell, coordinates_eq, position_axisSteps, Nat.mod_add_mod]

/-- The whole convolution, or nothing when a shape has too few axes. -/
def convolutionCells (left right : Nat) (p : Convolution) (input filter out : Shape) :
    Option Contraction :=
  (List.range out.volume).mapM (convolutionCell left right p input filter out)

/-- The flat input positions of a pooling window, modulo `modulus`, for flat position `i` of the shape
`out`. The input's channel axis is not consulted, so an input of rank 3 is read as one without
channels. -/
def poolTaps (modulus : Nat) (w : Window) (input out : Shape) (i : Nat) : Option (List Nat) :=
  match input, coordinates out i with
  | _ :: height :: width :: _, n :: oy :: ox :: ch :: _ =>
    some ((windowTaps w height width oy ox).map fun (_, _, iy, ix) =>
      (position modulus (axisSteps modulus input) [n, iy, ix] + ch) % modulus)
  | _, _ => none

/-- The taps by the offsets of pixels in the shape of the image. -/
theorem poolTaps_eq (modulus : Nat) (w : Window) (input out : Shape) (i : Nat) :
    poolTaps modulus w input out i =
      match input, out.unravel i with
      | _ :: height :: width :: _, n :: oy :: ox :: ch :: _ =>
        some ((windowTaps w height width oy ox).map fun (_, _, iy, ix) =>
          (input.offset [n, iy, ix] + ch) % modulus)
      | _, _ => none := by
  simp only [poolTaps, coordinates_eq, position_axisSteps, Nat.mod_add_mod]

/-- Three gradients, in the order of a layer's operands. -/
structure LayerGradients (α : Type) where
  input : Array α
  filter : Array α
  bias : Array α

section

variable {α : Type} [Zero α] [Add α] [Mul α]

/-- Each output is its filter's bias plus the products of the window's taps in the image. -/
def convolution (p : Convolution) (input filter bias : Shaped α) (out : Shape) :
    Except KernelFault (Array α) :=
  match convolutionCells (Word.modulus input.values.size) (Word.modulus filter.values.size) p
      input.shape filter.shape out with
  | none => .error .outOfRange
  | some cells =>
    guarded (cells.inside input.values.size filter.values.size bias.values.size)
      (cells.apply input.values filter.values bias.values)

def convolutionGrad (p : Convolution) (input filter grad : Shaped α) :
    Except KernelFault (LayerGradients α) :=
  match convolutionCells (Word.modulus input.values.size) (Word.modulus filter.values.size) p
      input.shape filter.shape grad.shape with
  | none => .error .outOfRange
  | some cells =>
    guarded (cells.inside input.values.size filter.values.size p.depth) {
      input := cells.leftGradient input.values.size filter.values grad.values
      filter := cells.rightGradient filter.values.size input.values grad.values
      bias := cells.biasGradient p.depth grad.values }

end

section

variable {α : Type} [Zero α] [LT α] [DecidableLT α]

/-- The first largest element among the taps, with its position. -/
def firstLargest (x : Array α) (taps : List Nat) : Option (Nat × α) :=
  taps.foldl (fun best i =>
    match best with
    | none => some (i, x.getD i 0)
    | some (_, value) => if value < x.getD i 0 then some (i, x.getD i 0) else best) none

/-- For every output the first largest element of its window, or nothing for a window without
taps. -/
def poolWindows (w : Window) (input : Shaped α) (out : Shape) :
    Except KernelFault (List (Option (Nat × α))) :=
  match (List.range out.volume).mapM
      (poolTaps (Word.modulus input.values.size) w input.shape out) with
  | none => .error .outOfRange
  | some windows =>
    guarded (windows.all fun taps => taps.all (· < input.values.size))
      (windows.map (firstLargest input.values))

/-- The largest element of each window; 0 for a window without taps. -/
def maxPool (w : Window) (input : Shaped α) (out : Shape) : Except KernelFault (Array α) := do
  let windows ← poolWindows w input out
  return (windows.map fun best => (best.map (·.2)).getD 0).toArray

/-- Each output's gradient goes to the element its window chose. -/
def maxPoolGrad [Add α] (w : Window) (input grad : Shaped α) : Except KernelFault (Array α) := do
  let windows ← poolWindows w input grad.shape
  return scatter input.values.size <|
    (windows.zip grad.values.toList).filterMap fun (best, g) => best.map fun (i, _) => (i, g)

end

end TensorCompiler.Kernel
