import TensorCompiler.Number.Scalar
import TensorCompiler.Tensor.Dense

/-!
What kernels share: the ways one can fail, a checked sum of products over index pairs, and the
scatter that runs such a sum backwards. A kernel that takes elements or ranges of a payload by their
positions checks that they lie inside it, so `outOfRange` is the only trace a position outside can
leave.
-/

namespace TensorCompiler

/-- Why a kernel gives no result. -/
inductive KernelFault where
  | elementwiseSizes
  | matmulLeftRank
  | matmulRightShape
  | sliceTiling
  | transposeRank
  | descentSizes
  | label (label : Int64) (width : Nat)
  | outOfRange
deriving DecidableEq, Repr

namespace KernelFault

def message : KernelFault → String
  | elementwiseSizes => "elementwise size mismatch"
  | matmulLeftRank => "batched matmul lhs must be rank 3"
  | matmulRightShape => "batched matmul rhs shape mismatch"
  | sliceTiling => "slice does not tile the batch"
  | transposeRank => "transpose rank mismatch"
  | descentSizes => "sgd operand sizes differ"
  | label l width =>
    "selected class " ++ toString l.toInt ++ " out of range for width " ++ Nat.repr width
  | outOfRange => "index outside the payload"

end KernelFault

namespace Kernel

/-- `act` when every index it needs is inside its payload. -/
def guarded {β : Type} (ok : Bool) (act : β) : Except KernelFault β :=
  if ok then .ok act else .error .outOfRange

/-- A product that a contraction adds up: an index into the left and one into the right payload. -/
abbrev Tap := Nat × Nat

section Products

variable {α : Type} [Zero α] [Add α] [Mul α]

/-- `start + x[i] * y[j] + ...`, over the taps in order. -/
def dot (x y : Array α) (start : α) (taps : List Tap) : α :=
  taps.foldl (fun acc t => acc + x.getD t.1 0 * y.getD t.2 0) start

/-- Adds each value to its place in a payload of zeros, in order. -/
def scatter (size : Nat) (contributions : List (Nat × α)) : Array α :=
  contributions.foldl (fun acc c => acc.modify c.1 (· + c.2)) (Array.replicate size 0)

omit [Mul α] in
theorem size_scatter (size : Nat) (contributions : List (Nat × α)) :
    (scatter size contributions).size = size := by
  have h (acc : Array α) :
      (contributions.foldl (fun acc c => acc.modify c.1 (· + c.2)) acc).size = acc.size := by
    induction contributions generalizing acc with
    | nil => rfl
    | cons c cs ih => rw [List.foldl_cons, ih, Array.size_modify]
  rw [scatter, h, Array.size_replicate]

end Products

/-- The taps lie inside payloads of the given sizes. -/
def inside (left right : Nat) (taps : List Tap) : Bool :=
  taps.all fun t => t.1 < left && t.2 < right

end Kernel

end TensorCompiler
