import TensorCompiler.Kernel.Access
import TensorCompiler.Operator.Basic

/-!
Kernels that cut a payload into rows of equal length: softmax, normalization over neighbouring
channels, and the sum along the batch axis. `rows_flatten` says that nothing is lost when the cut is
even. A range of a row that does not lie inside it is a fault.
-/

namespace TensorCompiler.Kernel

/-- The consecutive rows of `len` elements; the last may be shorter. -/
def rows {β : Type} (len : Nat) (values : List β) : List (List β) :=
  if _h : len = 0 ∨ values = [] then []
  else values.take len :: rows len (values.drop len)
termination_by values.length
decreasing_by
  have : 0 < values.length := List.length_pos_iff.2 (fun e => _h (.inr e))
  rw [List.length_drop]
  omega

theorem rows_flatten {β : Type} {len : Nat} (h : 0 < len) (values : List β) :
    (rows len values).flatten = values := by
  fun_induction rows len values with
  | case1 values hs =>
    rcases hs with hs | hs
    · omega
    · simp [hs]
  | case2 values hs ih => rw [List.flatten_cons, ih, List.take_append_drop]

variable {α : Type} [Scalar α]

/-- The probabilities of every row of a rank-2 input. -/
def softMax (input : Shaped α) : Except KernelFault (Array α) :=
  match input.shape with
  | _ :: width :: _ => .ok ((rows width input.values.toList).flatMap Scalar.softmax).toArray
  | _ => .error .outOfRange

/-- The position of a label in a row, if it names one of the row's classes. -/
def labelIndex? (width : Nat) (label : Int64) : Option Nat :=
  if 0 ≤ label.toInt ∧ label.toInt < width then some label.toInt.toNat else none

theorem labelIndex?_isSome {width : Nat} {label : Int64} (h₀ : 0 ≤ label.toInt)
    (h : label.toInt < width) : (labelIndex? width label).isSome := by
  simp [labelIndex?, h₀, h]

theorem labelIndex?_lt {width i : Nat} {label : Int64} (h : labelIndex? width label = some i) :
    i < width := by
  unfold labelIndex? at h
  split at h
  · cases h
    omega
  · cases h

/-- The probabilities less 1 at each row's label; the first label outside its row is a fault. -/
def softMaxGrad (output : Shaped α) (labels : List Int64) : Except KernelFault (Array α) :=
  match output.shape with
  | _ :: width :: _ =>
    labels.zipIdx.foldlM (fun acc (label, row) =>
      match labelIndex? width label with
      | none => .error (.label label width)
      | some i =>
        guarded (row * width + i < acc.size) (acc.modify (row * width + i) (· - 1)))
      output.values
  | _ => .error .outOfRange

/-- The sum of the elements of a row of `channels` from `c - half` to `c + half`, clipped to the
row. -/
def neighbourSum (half channels : Nat) (row : Array α) (c : Nat) : Except KernelFault α :=
  if channels = 0 then .error .outOfRange
  else
    let lo := c - half
    let hi := min ((c + half) % Word.modulus (2 * channels)) (channels - 1)
    guarded (lo ≤ hi + 1 && hi < row.size)
      (Scalar.total ((List.range (hi + 1 - lo)).map fun i => row.getD (lo + i) 0))

/-- How many channels a full neighbourhood has, as a number. -/
def neighbourhood (p : Normalization) : α := Scalar.ofNat (Word.wrap (2 * p.halfWindow + 1))

/-- For each channel of a pixel, `k + alpha / window * sum of neighbouring squares`. -/
def normalizationScales (p : Normalization) (channels : Nat) (pixel : Array α) :
    Except KernelFault (List α) :=
  (List.range channels).mapM fun c => do
    let sum ← neighbourSum p.halfWindow channels (pixel.map fun x => x * x) c
    return Scalar.ofSingle p.k + Scalar.ofSingle p.alpha / neighbourhood p * sum

/-- `scale ^ -beta`. -/
def normalizationFactor (p : Normalization) (scale : α) : α :=
  Scalar.power scale (-Scalar.ofSingle p.beta)

def normalizePixel (p : Normalization) (channels : Nat) (pixel : List α) :
    Except KernelFault (List α) := do
  let scales ← normalizationScales p channels pixel.toArray
  return List.zipWith (fun scale x => x * normalizationFactor p scale) scales pixel

/-- The gradient of one pixel: the direct part, and what each neighbour's scale passes on. -/
def normalizePixelGrad (p : Normalization) (channels : Nat) (pixel grad : List α) :
    Except KernelFault (List α) := do
  let scales ← normalizationScales p channels pixel.toArray
  if scales.length < channels ∨ pixel.length < channels ∨ grad.length < channels then
    throw .outOfRange
  let coefficient : α := Scalar.ofNat 2 * Scalar.ofSingle p.alpha * Scalar.ofSingle p.beta
    / neighbourhood p
  let ratios := (Array.range channels).map fun j =>
    grad.getD j 0 * pixel.getD j 0 * normalizationFactor p (scales.getD j 0) / scales.getD j 0
  (List.range channels).mapM fun c => do
    let neighbours ← neighbourSum p.halfWindow channels ratios c
    return grad.getD c 0 * normalizationFactor p (scales.getD c 0)
      - coefficient * pixel.getD c 0 * neighbours

def normalization (p : Normalization) (input : Shaped α) : Except KernelFault (Array α) :=
  match input.shape with
  | _ :: _ :: _ :: channels :: _ => do
    let pixels ← (rows channels input.values.toList).mapM (normalizePixel p channels)
    return pixels.flatten.toArray
  | _ => .error .outOfRange

def normalizationGrad (p : Normalization) (input grad : Shaped α) :
    Except KernelFault (Array α) :=
  match input.shape with
  | _ :: _ :: _ :: channels :: _ =>
    if grad.values.size < input.values.size then .error .outOfRange
    else do
      let pixels ← ((rows channels input.values.toList).zip (rows channels grad.values.toList)).mapM
        fun (pixel, g) => normalizePixelGrad p channels pixel g
      return pixels.flatten.toArray
  | _ => .error .outOfRange

/-- Adds the elements of a slice to the sums so far; a shorter slice adds to the first ones. -/
def addSlice : List α → List α → List α
  | sum :: sums, x :: slice => (sum + x) :: addSlice sums slice
  | sums, _ => sums

/-- The sum of the slices along the batch axis. -/
def batchedReduce (batch : Shaped α) : Except KernelFault (Array α) :=
  match batch.shape with
  | [] => .error .outOfRange
  | _ :: slice =>
    let len := Shape.volume slice
    .ok ((rows (max len 1) batch.values.toList).foldl addSlice (List.replicate len 0)).toArray

end TensorCompiler.Kernel
