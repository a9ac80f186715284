import TensorCompiler.Graph.Module

/-!
Building functions node by node. A layer creates its weights before its node; its input is checked
before anything is created.
-/

namespace TensorCompiler.Module

/-- Appends a node to a function, and gives its number. -/
def createNode (m : Module) (f : Nat) (name : String) (op : Operator) (inputs : List Value) :
    Except Error Nat × Module :=
  match m.function f with
  | .error e => (.error e, m)
  | .ok fn =>
    match fn.append m.storage name op inputs with
    | .error e => (.error e, m)
    | .ok fn' => (.ok fn.size, m.setFunction f fn')

/-- Weights drawn from the generator and a zero bias, both trainable: their numbers. -/
def createWeights (m : Module) (weights bias : String) (shape : Shape) (fanIn depth : Nat) :
    (Nat × Nat) × Module :=
  let (tensor, generator) := Random.xavier shape fanIn m.generator
  let (w, m) := createVariable { m with generator } weights tensor false true
  let (b, m) := m.createVariable bias (.zeros (.float [depth])) false true
  ((w, b), m)

/-- The input type and channels of a convolution layer that fits its input. -/
def checkConvolution (m : Module) (f : Nat) (input : Value) (p : Convolution) :
    Except Error Nat := do
  let type ← (← m.function f).valueType m.storage input
  match type.shape with
  | [_, _, _, c] =>
    let operands := [type, .float [p.depth, p.kernel, p.kernel, c], .float [p.depth]]
    let _ ← (Typing.resultTypes m.storage (.conv p) operands).mapError .ofTyping
    return c
  | _ => throw (.convolutionInput type)

/-- A convolution with a filter and bias of its own. -/
def createConvolution (m : Module) (f : Nat) (name : String) (input : Value) (p : Convolution) :
    Except Error Nat × Module :=
  match m.checkConvolution f input p with
  | .error e => (.error e, m)
  | .ok c =>
    let ((w, b), m) := m.createWeights (name ++ ".filter") (name ++ ".bias")
      [p.depth, p.kernel, p.kernel, c] (p.kernel * p.kernel * c) p.depth
    m.createNode f name (.conv p) [input, .storage (.var w), .storage (.var b)]

/-- The flattened width of the input of a dense layer. -/
def checkDense (m : Module) (f : Nat) (input : Value) (depth : Nat) : Except Error Nat := do
  let type ← (← m.function f).valueType m.storage input
  match type.shape with
  | _ :: d :: ds =>
    let width := Shape.volume (d :: ds)
    let operands := [type, .float [width, depth], .float [depth]]
    let _ ← (Typing.resultTypes m.storage .fullyConnected operands).mapError .ofTyping
    return width
  | _ => throw (.denseInput type)

/-- A dense layer with weights and bias of its own. -/
def createDense (m : Module) (f : Nat) (name : String) (input : Value) (depth : Nat) :
    Except Error Nat × Module :=
  match m.checkDense f input depth with
  | .error e => (.error e, m)
  | .ok width =>
    let ((w, b), m) := m.createWeights (name ++ ".weights") (name ++ ".bias")
      [width, depth] width depth
    m.createNode f name .fullyConnected [input, .storage (.var w), .storage (.var b)]

/-- Saves a value into a new placeholder, and gives the placeholder's number. -/
def createOutput (m : Module) (f : Nat) (name : String) (value : Value) :
    Except Error Nat × Module :=
  match (m.function f).bind (·.valueType m.storage value) with
  | .error e => (.error e, m)
  | .ok type =>
    let (p, m) := m.createPlaceholder name type false
    let (result, m) := m.createNode f ("save_" ++ name) (.save (.placeholder p)) [value]
    (result.map fun _ => p, m)

end TensorCompiler.Module
