import TensorCompiler.Graph.Function

/-!
Chains of reshapes: which value's elements a value shows.
-/

namespace TensorCompiler.Function

/-- The elements of the first value are those of the second, seen through reshapes. -/
inductive Shows (f : Function) : Value → Value → Prop
  | self (v : Value) : Shows f v v
  | reshape {id : Nat} {n : Node} {shape : Shape} {v w : Value} : f.nodes[id]? = some n →
      n.op = .reshape shape → n.inputs = [v] → Shows f v w → Shows f (.node id 0) w

theorem Shows.storage {f : Function} {ref : StorageRef} {w : Value}
    (h : Shows f (.storage ref) w) : w = .storage ref := by
  cases h
  rfl

/-- The node changes the storage: it saves to it, or descends on it. -/
def Writes (n : Node) (ref : StorageRef) : Prop :=
  n.op = .save ref ∨ ∃ p, n.op = .sgd p ∧ n.inputs[1]? = some (.storage ref)

/-- No storage is written between a reshape of it, or a chain of reshapes, and a later reader of the
reshaped value. -/
def ReshapesStable (f : Function) : Prop :=
  ∀ ⦃i j k : Nat⦄ ⦃ref : StorageRef⦄ ⦃writer reader : Node⦄, i < j → j < k →
    f.Shows (.node i 0) (.storage ref) → f.nodes[j]? = some writer → Writes writer ref →
    f.nodes[k]? = some reader → Value.node i 0 ∉ reader.inputs

end TensorCompiler.Function
