import TensorCompiler.Kernel.Contraction
import TensorCompiler.Kernel.Spatial

/-!
Matrix kernels: the dense layer with its gradients, and the batched product. The dense layer
flattens everything after the batch axis.
-/

namespace TensorCompiler.Kernel

/-- A dense layer: output `(n, d)` starts at bias `d` and pairs row `n` with column `d`. -/
def denseCells (batch rows depth : Nat) : Contraction :=
  (List.range batch).flatMap fun n =>
    (List.range depth).map fun d =>
      { bias := d
        taps := (List.range rows).map fun k => (n * rows + k, k * depth + d) }

/-- The taps of a batched product, in output order; `step` is how far the right operand moves from
one sample to the next, 0 when it is shared. -/
def productTaps (batch rows inner cols step : Nat) : List (List Tap) :=
  (List.range batch).flatMap fun n =>
    (List.range rows).flatMap fun i =>
      (List.range cols).map fun j =>
        (List.range inner).map fun k =>
          (n * rows * inner + i * inner + k, n * step + k * cols + j)

section

variable {α : Type} [Zero α] [Add α] [Mul α]

def fullyConnected (input weights bias : Shaped α) : Except KernelFault (Array α) :=
  match input.shape, weights.shape with
  | batch :: _, rows :: depth :: _ =>
    let cells := denseCells batch rows depth
    guarded (cells.inside input.values.size weights.values.size bias.values.size)
      (cells.apply input.values weights.values bias.values)
  | _, _ => .error .outOfRange

def fullyConnectedGrad (input weights grad : Shaped α) :
    Except KernelFault (LayerGradients α) :=
  match input.shape, weights.shape with
  | batch :: _, rows :: depth :: _ =>
    let cells := denseCells batch rows depth
    guarded (cells.inside input.values.size weights.values.size depth &&
        batch * depth ≤ grad.values.size) {
      input := cells.leftGradient input.values.size weights.values grad.values
      filter := cells.rightGradient weights.values.size input.values grad.values
      bias := cells.biasGradient depth grad.values }
  | _, _ => .error .outOfRange

/-- One product per sample; a right operand of rank 2 is shared by all samples. -/
def batchedMatMul (left right : Shaped α) : Except KernelFault (Array α) :=
  match left.shape with
  | [batch, rows, inner] =>
    let product (step cols : Nat) : Except KernelFault (Array α) :=
      let taps := productTaps batch rows inner cols step
      guarded (taps.all (inside left.values.size right.values.size))
        (taps.map (dot left.values right.values 0)).toArray
    match right.shape with
    | [b, cols] => if b = inner then product 0 cols else .error .matmulRightShape
    | [n, b, cols] =>
      if n = batch ∧ b = inner then product (inner * cols) cols else .error .matmulRightShape
    | _ => .error .matmulRightShape
  | _ => .error .matmulLeftRank

end

end TensorCompiler.Kernel
