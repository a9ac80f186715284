import TensorCompiler.Graph.Module

/-!
From functions to artifacts: every node becomes one instruction over declared buffers, and every
activation is allocated just before it is defined and deallocated just after its last access.
A reshape is a view of its operand, a save or a regression a copy.
-/

namespace TensorCompiler.Lowering

/-- What has been declared and emitted so far. -/
structure Stream where
  buffers : List Buffer
  weights : List (StorageRef × Nat)
  /-- The buffer of each result of each node. -/
  values : List ((Nat × Nat) × Nat)
  /-- For every view the buffer at the end of its chain. -/
  roots : IdMap Nat
  body : List Instruction

namespace Stream

def empty : Stream := ⟨[], [], [], .empty, []⟩

end Stream

abbrev Emit := StateT Stream (Except Error)

/-- Declares a buffer, and gives its number. -/
def declare (name : String) (type : TensorType) (kind : BufferKind) : Emit Nat := do
  let id := (← get).buffers.length
  let buffer : Buffer := { id, name, type, kind }
  modify fun st => { st with buffers := st.buffers ++ [buffer] }
  return id

/-- The buffer of a storage, declared at its first use. -/
def weight (s : Storage) (ref : StorageRef) : Emit Nat := do
  match (← get).weights.lookup ref with
  | some id => return id
  | none =>
    match s.type? ref, s.name? ref with
    | some type, some name =>
      let id ← declare name type (.weight ref)
      modify fun st => { st with weights := st.weights ++ [(ref, id)] }
      return id
    | _, _ => throw (.unknownStorage ref)

def operand (s : Storage) (f : Function) (v : Value) : Emit Nat := do
  match v with
  | .storage ref => weight s ref
  | .node id result =>
    match (← get).values.lookup (id, result) with
    | some buffer => return buffer
    | none => throw (.lowering f.name (.noBuffer v.text))

/-- The name of a result's buffer: the node's, with a number when there are several. -/
def resultName (n : Node) (i : Nat) : String :=
  if n.results.length = 1 then n.name else n.name ++ "." ++ Nat.repr i

def bindValue (value : Nat × Nat) (buffer : Nat) : Emit Unit :=
  modify fun st => { st with values := st.values ++ [(value, buffer)] }

/-- Declares an activation for every result of a node. -/
def results (n : Node) (id : Nat) : Emit (List Nat) :=
  n.results.zipIdx.mapM fun (type, i) => do
    let buffer ← declare (resultName n i) type .activation
    bindValue (id, i) buffer
    return buffer

def emit (i : Instruction) : Emit Unit := modify fun st => { st with body := st.body ++ [i] }

/-- The operation of an operator whose results are activations; the others have none. -/
def opcode? : Operator → Option Opcode
  | .binary op => some (.binary op)
  | .unary op => some (.unary op)
  | .splat value _ => some (.splat value)
  | .transpose perm => some (.transpose perm)
  | .conv p => some (.conv p)
  | .maxPool w => some (.maxPool w)
  | .fullyConnected => some .fullyConnected
  | .softMax => some .softMax
  | .normalization p => some (.normalization p)
  | .batchedMatMul => some .batchedMatMul
  | .batchedReduce => some .batchedReduce
  | .batched op => some (.batched op)
  | .reluGrad => some .reluGrad
  | .convGrad p => some (.convGrad p)
  | .maxPoolGrad w => some (.maxPoolGrad w)
  | .fullyConnectedGrad => some .fullyConnectedGrad
  | .softMaxGrad => some .softMaxGrad
  | .normalizationGrad p => some (.normalizationGrad p)
  | .regression => some .copy
  | .reshape _ | .save _ | .sgd _ => none

/-- The operands that a node's instruction reads; a regression copies its first. -/
def read (op : Operator) (inputs : List Nat) : List Nat :=
  match op with
  | .regression => inputs.take 1
  | _ => inputs

/-- A view of the operand, rooted where the operand is. -/
def lowerReshape (f : Function) (n : Node) (id source : Nat) : Emit Unit := do
  match n.results with
  | type :: _ =>
    let view ← declare n.name type (.view source)
    modify fun st =>
      { st with roots := st.roots.insert view ((st.roots.get? source).getD source) }
    bindValue (id, 0) view
    emit (.ofBuffers .view [view] [source])
  | [] => throw (.lowering f.name (.noResult n.name))

/-- An update of the weight in place, with a momentum of its own. -/
def lowerDescent (n : Node) (p : Descent) (gradient weight : Nat) : Emit Unit := do
  match (← get).buffers[weight]? with
  | some declared =>
    let state ← declare (n.name ++ ".momentum") declared.type .state
    emit ⟨.sgd p, [⟨weight, .readWrite⟩, ⟨gradient, .read⟩, ⟨state, .readWrite⟩]⟩
  | none => return ()

def lowerNode (s : Storage) (f : Function) (n : Node) (id : Nat) : Emit Unit := do
  let inputs ← n.inputs.mapM (operand s f)
  match n.op, inputs with
  | .reshape _, source :: _ => lowerReshape f n id source
  | .save destination, _ =>
    let target ← weight s destination
    emit (.ofBuffers .copy [target] inputs)
  | .sgd p, gradient :: weight :: _ => lowerDescent n p gradient weight
  | op, _ =>
    match opcode? op with
    | some code => emit (.ofBuffers code (← results n id) (read op inputs))
    | none => return ()

/-- The buffer whose elements an operand shows. -/
def rootOf (roots : IdMap Nat) (buffer : Nat) : Nat := (roots.get? buffer).getD buffer

/-- An activation, with the positions of its definition and of its last access. -/
structure Lifetime where
  buffer : Nat
  first : Nat
  last : Nat
deriving DecidableEq, Repr

/-- The position of the last instruction that satisfies `p`. -/
def lastPosition? (p : Instruction → Bool) (body : List Instruction) : Option Nat :=
  (body.reverse.findIdx? p).map fun i => body.length - 1 - i

/-- The lifetimes of the activations that are defined, in order of their buffers. An access to a
view counts for its root. -/
def lifetimes (st : Stream) : List Lifetime :=
  (st.buffers.filter (·.isActivation)).filterMap fun b => do
    let first ← st.body.findIdx? fun i =>
      i.operands.any fun o => o.buffer = b.id && o.access = .write
    let last ← lastPosition? (fun i =>
      i.operands.any fun o => rootOf st.roots o.buffer = b.id) st.body
    return ⟨b.id, first, last⟩

/-- The body with every activation allocated before its definition and deallocated after its last
access. -/
def withMarkers (lives : List Lifetime) (body : List Instruction) : List Instruction :=
  body.zipIdx.flatMap fun (i, position) =>
    (lives.filter (·.first = position)).map (fun l => .ofBuffers .alloc [l.buffer] []) ++ i ::
      (lives.filter (·.last = position)).map fun l => .ofBuffers .dealloc [l.buffer] []

def stream (s : Storage) (f : Function) : Except Error Stream := do
  let ((), st) ← (f.nodes.zipIdx.forM fun (n, id) => lowerNode s f n id : Emit Unit).run .empty
  return st

end TensorCompiler.Lowering

namespace TensorCompiler

namespace Function

/-- The artifact of a function. The function is verified first and the artifact last; with `reuse`,
activations that are never alive together share arena slots. -/
def lower (s : Storage) (f : Function) (reuse : Bool) : Except Error Artifact := do
  f.verify s
  let st ← Lowering.stream s f
  let instructions := Lowering.withMarkers (Lowering.lifetimes st) st.body
  let plan ← (Plan.make reuse st.buffers instructions).mapError fun fault =>
    .lowering f.name (.plan fault)
  let artifact : Artifact := { name := f.name, buffers := st.buffers, instructions, plan }
  artifact.verify.mapError (.lowering f.name)
  return artifact

end Function

def Module.lower (m : Module) (id : Nat) (reuse : Bool) : Except Error Artifact := do
  (← m.function id).lower m.storage reuse

end TensorCompiler
