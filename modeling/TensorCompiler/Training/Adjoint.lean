import TensorCompiler.Graph.Module

/-!
Reverse-mode differentiation. The training function is a copy of the source followed by gradient
nodes and one descent node for every trainable storage that a gradient reaches. Nodes are visited
from the last to the first; what their readers pass back is kept in a list of contributions until
the node itself is reached.
-/

namespace TensorCompiler.Training

/-- The function being built, and for each value the gradients its readers have passed back so far,
in the order they were recorded. -/
structure Backward where
  function : Function
  pending : List (Value × Value)

abbrev Pass := StateT Backward (Except Error)

/-- For every node whether its gradient is wanted: it has a float result and depends on storage
that is trained. -/
def wantedNodes (s : Storage) (nodes : List Node) : List Bool :=
  nodes.foldl (fun wanted n =>
    let depends := n.inputs.any fun
      | .storage ref => s.isTrainableFloat ref
      | .node id _ => wanted.getD id false
    wanted ++ [((n.results.head?.map (·.isFloat)).getD false) && depends]) []

/-- What the pass knows about its source. -/
structure Source where
  function : Function
  storage : Storage
  wanted : List Bool

namespace Source

def ofFunction (s : Storage) (f : Function) : Source := ⟨f, s, wantedNodes s f.nodes⟩

/-- The gradient of a value is wanted. -/
def wants (src : Source) : Value → Bool
  | .storage ref => src.storage.isTrainableFloat ref
  | .node id _ => src.wanted.getD id false

/-- Appends a node, and gives its first result. -/
def emit (src : Source) (name : String) (op : Operator) (inputs : List Value) : Pass Value := do
  let st ← get
  let f ← st.function.append src.storage name op inputs
  set { st with function := f }
  return .node st.function.size 0

def typeOf (src : Source) (v : Value) : Pass TensorType := do
  (← get).function.valueType src.storage v

/-- A constant of the type of `like`. -/
def constant (src : Source) (name : String) (like : Value) (x : Single) : Pass Value := do
  src.emit name (.splat x (← src.typeOf like)) []

/-- Passes `gradient` back to `value`, if anyone wants it. -/
def contribute (src : Source) (value gradient : Value) : Pass Unit :=
  modify fun st =>
    if src.wants value then { st with pending := st.pending ++ [(value, gradient)] } else st

/-- Passes back the result of `gradient`, which is built only when it is wanted. -/
def contributeFrom (src : Source) (value : Value) (gradient : Pass Value) : Pass Unit := do
  if src.wants value then src.contribute value (← gradient)

/-- Takes all contributions to a value off the list. -/
def takePending (value : Value) : Pass (List Value) := do
  let st ← get
  set { st with pending := st.pending.filter (·.1 ≠ value) }
  return (st.pending.filter (·.1 = value)).map (·.2)

/-- The gradient of a value: the sum of its contributions in the order they were recorded. -/
def takeGradient (src : Source) (value : Value) (label : String) : Pass (Option Value) := do
  match ← takePending value with
  | [] => return none
  | first :: rest =>
    return some (← rest.foldlM (fun total part =>
      src.emit (label ++ "_grad_sum") (.binary .add) [total, part]) first)

/-- The permutation that undoes `perm`. -/
def inversePermutation (perm : List Nat) : List Nat :=
  (List.range perm.length).map perm.idxOf

/-- The gradients of a layer's input, filter and bias are the results of one node. -/
def contributeLayer (src : Source) (name : String) (op : Operator) (inputs : List Value)
    (g : Value) : Pass Unit := do
  match ← src.emit name op (inputs.take 2 ++ [g]) with
  | .node id _ => inputs.zipIdx.forM fun (input, i) => src.contribute input (.node id i)
  | .storage _ => return ()

/-- `g * out * (1 - out)`. -/
def sigmoidGradient (src : Source) (name : String) (out g : Value) : Pass Value := do
  let one ← src.constant (name ++ "_one") out 1
  let rest ← src.emit (name ++ "_rest") (.binary .sub) [one, out]
  let slope ← src.emit (name ++ "_slope") (.binary .mul) [out, rest]
  src.emit (name ++ "_grad") (.binary .mul) [g, slope]

/-- `g * (1 - out * out)`. -/
def tanhGradient (src : Source) (name : String) (out g : Value) : Pass Value := do
  let one ← src.constant (name ++ "_one") out 1
  let square ← src.emit (name ++ "_square") (.binary .mul) [out, out]
  let slope ← src.emit (name ++ "_slope") (.binary .sub) [one, square]
  src.emit (name ++ "_grad") (.binary .mul) [g, slope]

/-- The left operand gets `g` times the right one transposed, the right one the left one transposed
times `g`, summed over the batch when all samples share it. -/
def matmulRule (src : Source) (name : String) (left right g : Value) : Pass Unit := do
  let shared := (← src.typeOf right).rank = 2
  src.contributeFrom left do
    let t ← src.emit (name ++ "_rhs_t") (.transpose (if shared then [1, 0] else [0, 2, 1])) [right]
    src.emit (name ++ "_lhs_grad") .batchedMatMul [g, t]
  src.contributeFrom right do
    let t ← src.emit (name ++ "_lhs_t") (.transpose [0, 2, 1]) [left]
    let product ← src.emit (name ++ "_rhs_grad") .batchedMatMul [t, g]
    if shared then src.emit (name ++ "_rhs_grad_sum") .batchedReduce [product] else return product

/-- The gradient of a batch combined with a slice. -/
def batchedRule (src : Source) (name : String) (op : BatchOp) (batch slice g : Value) :
    Pass Unit := do
  match op with
  | .add =>
    src.contribute batch g
    src.contributeFrom slice (src.emit (name ++ "_slice_grad") .batchedReduce [g])
  | .mul =>
    let batchGradient ←
      if src.wants batch then src.emit (name ++ "_batch_grad") (.batched .mul) [g, slice]
      else pure g
    let scaled ←
      if src.wants slice then src.emit (name ++ "_scaled") (.binary .mul) [g, batch] else pure g
    src.contribute batch batchGradient
    src.contributeFrom slice (src.emit (name ++ "_slice_grad") .batchedReduce [scaled])

/-- Operators whose gradient is not known. -/
def noRule (src : Source) (n : Node) : Pass Unit :=
  throw (.differentiation src.function.name (.noRule n.op n.name))

/-- Passes the gradient `g` of the output `out` back to the operands of a node. -/
def rule (src : Source) (n : Node) (out g : Value) : Pass Unit :=
  let name := n.name
  let single := name ++ "_grad"
  match n.op, n.inputs with
  | .binary .add, [x, y] => do
    src.contribute x g
    src.contribute y g
  | .binary .sub, [x, y] => do
    src.contribute x g
    src.contributeFrom y do
      let zero ← src.constant (name ++ "_zero") g 0
      src.emit (name ++ "_rhs_grad") (.binary .sub) [zero, g]
  | .binary .mul, [x, y] => do
    src.contributeFrom x (src.emit (name ++ "_lhs_grad") (.binary .mul) [g, y])
    src.contributeFrom y (src.emit (name ++ "_rhs_grad") (.binary .mul) [g, x])
  | .unary .relu, [x] => src.contributeFrom x (src.emit single .reluGrad [out, g])
  | .unary .sigmoid, [x] => src.contributeFrom x (src.sigmoidGradient name out g)
  | .unary .tanh, [x] => src.contributeFrom x (src.tanhGradient name out g)
  | .splat .., _ => return ()
  | .reshape _, [x] => src.contributeFrom x do
    src.emit single (.reshape (← src.typeOf x).shape) [g]
  | .transpose perm, [x] =>
    src.contributeFrom x (src.emit single (.transpose (inversePermutation perm)) [g])
  | .conv p, inputs => src.contributeLayer single (.convGrad p) inputs g
  | .maxPool w, [x] => src.contributeFrom x (src.emit single (.maxPoolGrad w) [x, g])
  | .fullyConnected, inputs => src.contributeLayer single .fullyConnectedGrad inputs g
  | .normalization p, [x] =>
    src.contributeFrom x (src.emit single (.normalizationGrad p) [x, g])
  | .batchedMatMul, [x, y] => src.matmulRule name x y g
  | .batchedReduce, [x] => src.contributeFrom x do
    let zero ← src.constant (name ++ "_zero") x 0
    src.emit single (.batched .add) [zero, g]
  | .batched op, [batch, slice] => src.batchedRule name op batch slice g
  | _, _ => src.noRule n

/-- Visits one node: a save starts with a zero gradient, a loss with the gradient of its labels,
and any other node passes on what its readers have contributed. -/
def visit (src : Source) (n : Node) (id : Nat) : Pass Unit := do
  let out := Value.node id 0
  match n.op, n.inputs with
  | .save _, [x] =>
    src.contributeFrom x (src.constant (n.name ++ "_zero_grad") x 0)
  | .softMax, [x, labels] =>
    let _ ← takePending out
    src.contributeFrom x (src.emit (n.name ++ "_grad") .softMaxGrad [out, labels])
  | .regression, [x, expected] =>
    let _ ← takePending out
    src.contributeFrom x (src.emit (n.name ++ "_grad") (.binary .sub) [x, expected])
  | .sgd _, _ | .reluGrad, _ | .convGrad _, _ | .maxPoolGrad _, _ | .fullyConnectedGrad, _
  | .softMaxGrad, _ | .normalizationGrad _, _ => src.noRule n
  | _, _ =>
    match ← src.takeGradient out n.name with
    | none => return ()
    | some g => src.rule n out g

/-- Visits every node of the source from the last to the first. -/
def backpropagate (src : Source) : Pass Unit :=
  src.function.nodes.zipIdx.reverse.forM fun (n, id) => src.visit n id

/-- One descent node for every trained storage that a gradient has reached, in order. -/
def emitUpdates (src : Source) (settings : Descent) : Pass Unit :=
  src.storage.refs.forM fun ref => do
    if src.storage.isTrainable ref then
      let name := (src.storage.name? ref).getD ""
      match ← src.takeGradient (.storage ref) name with
      | none => return ()
      | some g =>
        let _ ← src.emit (name ++ "_sgd") (.sgd settings) [g, .storage ref]

/-- The training function of the source, before dead nodes are removed. -/
def derivative (src : Source) (settings : Descent) : Except Error Function := do
  let start : Backward := ⟨{ src.function with name := src.function.name ++ "_grad" }, []⟩
  let ((), result) ← (do src.backpropagate; src.emitUpdates settings : Pass Unit).run start
  return result.function

end Source

end TensorCompiler.Training

namespace TensorCompiler.Module

/-- Adds the training function of a function to the module, and gives its number. -/
def differentiate (m : Module) (id : Nat) (settings : Descent) : Except Error (Nat × Module) := do
  m.verifyFunction id
  let source ← m.function id
  settings.check.mapError fun fault => .differentiation source.name (.settings fault)
  let derived ← (Training.Source.ofFunction m.storage source).derivative settings
  let f := derived.eliminateDead
  f.verify m.storage
  return m.insertFunction f

end TensorCompiler.Module
