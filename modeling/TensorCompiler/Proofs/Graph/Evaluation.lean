import TensorCompiler.Graph.Function
import TensorCompiler.Run.Interpreter

/-!
The meaning of a graph, without buffers or instructions: the nodes are visited in order, every node
gets its results once, and only saves and steps of descent change storage. `Operator.compute` is what
a node computes, `Valuation.step` the visit of one node, and `Function.evaluate` the whole function.
-/

namespace TensorCompiler

variable {α : Type}

/-- The numbers of a float tensor. -/
def Tensor.floats? : Tensor α → Option (Shaped α)
  | .floats d => some d
  | .indices _ => none

/-- The integers of an index tensor. -/
def Tensor.indices? : Tensor α → Option (Shaped Int64)
  | .indices d => some d
  | .floats _ => none

/-- The result of a kernel as the elements of a node's only result. -/
def single (result : Except KernelFault (Array α)) : Option (List (Payload α)) :=
  match result with
  | .ok values => some [.floats values]
  | .error _ => none

/-- The gradients of a layer as the elements of a node's three results. -/
def layer (result : Except KernelFault (Kernel.LayerGradients α)) : Option (List (Payload α)) :=
  match result with
  | .ok g => some [.floats g.input, .floats g.filter, .floats g.bias]
  | .error _ => none

/-- What an operator computes from its operands, for results of the given types. Saves and steps of
descent compute no results. -/
def Operator.compute [Scalar α] (op : Operator) (results : List TensorType)
    (operands : List (Tensor α)) : Option (List (Payload α)) :=
  match op, results, operands with
  | .binary op, _, [x, y] => do single (Kernel.binary op (← x.floats?) (← y.floats?))
  | .unary op, _, [x] => do single (.ok (Kernel.unary op (← x.floats?)))
  | .splat value type, _, [] => some [splatPayload type value]
  | .reshape _, _, [x] => some [x.payload]
  | .transpose perm, [out], [x] => (transposePayload perm x out.shape).toOption.map ([·])
  | .conv p, [out], [x, f, b] => do
    single (Kernel.convolution p (← x.floats?) (← f.floats?) (← b.floats?) out.shape)
  | .maxPool w, [out], [x] => do single (Kernel.maxPool w (← x.floats?) out.shape)
  | .fullyConnected, _, [x, w, b] => do
    single (Kernel.fullyConnected (← x.floats?) (← w.floats?) (← b.floats?))
  | .softMax, _, [x, _] => do single (Kernel.softMax (← x.floats?))
  | .normalization p, _, [x] => do single (Kernel.normalization p (← x.floats?))
  | .regression, _, [x, _] => some [x.payload]
  | .batchedMatMul, _, [x, y] => do single (Kernel.batchedMatMul (← x.floats?) (← y.floats?))
  | .batchedReduce, _, [x] => do single (Kernel.batchedReduce (← x.floats?))
  | .batched op, _, [x, s] => do single (Kernel.batched op (← x.floats?) (← s.floats?))
  | .reluGrad, _, [y, g] => do single (.ok (Kernel.reluGrad (← y.floats?) (← g.floats?)))
  | .convGrad p, _, [x, f, g] => do
    layer (Kernel.convolutionGrad p (← x.floats?) (← f.floats?) (← g.floats?))
  | .maxPoolGrad w, _, [x, g] => do single (Kernel.maxPoolGrad w (← x.floats?) (← g.floats?))
  | .fullyConnectedGrad, _, [x, w, g] => do
    layer (Kernel.fullyConnectedGrad (← x.floats?) (← w.floats?) (← g.floats?))
  | .softMaxGrad, _, [y, labels] => do
    single (Kernel.softMaxGrad (← y.floats?) (← labels.indices?).values.toList)
  | .normalizationGrad p, _, [x, g] => do
    single (Kernel.normalizationGrad p (← x.floats?) (← g.floats?))
  | _, _, _ => none

/-- Elements as tensors of the given types. -/
def tensors : List TensorType → List (Payload α) → Option (List (Tensor α))
  | [], [] => some []
  | type :: types, p :: ps => do
    return (← (Tensor.ofPayload type p).toOption) :: (← tensors types ps)
  | _, _ => none

/-- The state of an evaluation: the storage, the momentum of every node of descent, and the results
of the nodes visited so far. -/
structure Valuation (α : Type) where
  vars : List (Tensor α)
  bindings : IdMap (Tensor α)
  momentum : Nat → Option (Tensor α)
  values : List (List (Tensor α))

namespace Valuation

/-- What a storage holds. -/
def storage? (g : Valuation α) : StorageRef → Option (Tensor α)
  | .var id => g.vars[id]?
  | .placeholder id => g.bindings.get? id

def value? (g : Valuation α) : Value → Option (Tensor α)
  | .node id result => (g.values[id]?).bind (·[result]?)
  | .storage ref => g.storage? ref

def store (g : Valuation α) (t : Tensor α) : StorageRef → Valuation α
  | .var id => { g with vars := g.vars.set id t }
  | .placeholder id => { g with bindings := g.bindings.insert id t }

/-- The results of the next node. -/
def push (g : Valuation α) (results : List (Tensor α)) : Valuation α :=
  { g with values := g.values ++ [results] }

/-- A weight and its momentum after a step of descent; the momentum is read under the weight's
type. -/
def descended [Scalar α] (p : Descent) (weight gradient momentum : Tensor α) :
    Option (Tensor α × Tensor α) := do
  let m ← (Tensor.ofPayload weight.type momentum.payload).toOption
  let (w, m) ←
    (Kernel.descent p (← weight.floats?) (← gradient.floats?) (← m.floats?)).toOption
  return (← (weight.withPayload (.floats w)).toOption,
    ← (momentum.withPayload (.floats m)).toOption)

/-- Visits a node. -/
def step [Scalar α] (g : Valuation α) (n : Node) : Option (Valuation α) := do
  let operands ← n.inputs.mapM g.value?
  match n.op, n.inputs, operands with
  | .save ref, _, [x] => return (g.store x ref).push []
  | .sgd p, [_, .storage ref], [gradient, weight] =>
    let id := g.values.length
    let (weight, momentum) ← descended p weight gradient (← g.momentum id)
    let g := g.store weight ref
    return { g with momentum := fun i => if i = id then some momentum else g.momentum i }.push []
  | op, _, _ => return g.push (← tensors n.results (← op.compute n.results operands))

/-- Visits nodes in order, up to the first that fails, whose position is the error. -/
def visit [Scalar α] : Valuation α → List Node → Except Nat Unit × Valuation α
  | g, [] => (.ok (), g)
  | g, n :: rest =>
    match g.step n with
    | some g => visit g rest
    | none => (.error g.values.length, g)

end Valuation

/-- The evaluation of a function from given contents of storage. -/
def Function.evaluate [Scalar α] (f : Function) (vars : List (Tensor α))
    (bindings : IdMap (Tensor α)) (momentum : Nat → Option (Tensor α)) :
    Except Nat Unit × Valuation α :=
  Valuation.visit ⟨vars, bindings, momentum, []⟩ f.nodes

end TensorCompiler
