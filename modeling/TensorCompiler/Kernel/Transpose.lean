import TensorCompiler.Kernel.Access
import TensorCompiler.Kernel.Addressing

/-!
Transposition: axis `i` of the output is axis `perm[i]` of the input.
-/

namespace TensorCompiler.Kernel

/-- The input position of the element at the given output coordinates. -/
def sourceIndex (modulus : Nat) (strides perm coords : List Nat) : Nat :=
  (coords.zip perm).foldl (fun position p => (position + p.1 * strides.getD p.2 0) % modulus) 0

/-- Each output position takes the element that its coordinates name in the input. -/
def transpose {β : Type} [Zero β] (perm : List Nat) (input : Shaped β) (out : Shape) :
    Except KernelFault (Array β) :=
  let total := input.values.size
  let modulus := Word.modulus total
  let strides := axisSteps modulus input.shape
  let source (i : Nat) := sourceIndex modulus strides perm (coordinates out i)
  if perm.length ≠ input.shape.length then .error .transposeRank
  else
    guarded (total = 0 ∨ (out.length ≤ perm.length ∧ (perm.take out.length).all (· < strides.length)
        ∧ 0 ∉ out ∧ (List.range total).all fun i => source i < total))
      ((List.range total).map fun i => input.values.getD (source i) 0).toArray

end TensorCompiler.Kernel
