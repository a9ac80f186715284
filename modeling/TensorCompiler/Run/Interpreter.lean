import TensorCompiler.Kernel.Matrix
import TensorCompiler.Kernel.Pointwise
import TensorCompiler.Kernel.Rows
import TensorCompiler.Kernel.Spatial
import TensorCompiler.Kernel.Transpose
import TensorCompiler.Run.Memory

/-!
Execution of instruction streams. An instruction first reads and computes, which gives the list of
its `effects`, and then stores them in order; so it reads nothing that it has written itself, and
only the stores change the memory.
-/

namespace TensorCompiler

/-- What the interpreter calls itself. -/
def interpreterName : String := "cpu-ref"

/-- A fault, with the instruction it arose in. -/
structure RunFault where
  instruction : Option Instruction
  fault : ExecutionFault
deriving DecidableEq, Repr

namespace RunFault

/-- Arithmetic on index elements is a gap of the interpreter rather than a failure of the run. -/
def isUnimplemented (r : RunFault) : Bool :=
  match r.fault with
  | .notFloat _ => true
  | _ => false

def message (r : RunFault) : String :=
  match r.instruction, r.fault with
  | some i, .notFloat _ => i.op.name ++ " is not implemented: " ++ r.fault.message
  | some i, _ =>
    let operands := i.operands.map fun o => "@" ++ o.access.text ++ " %" ++ Nat.repr o.buffer
    "backend execution failure: " ++ i.op.name ++ " (" ++ ", ".intercalate operands ++ "): " ++
      r.fault.message
  | none, _ => "backend execution failure: " ++ r.fault.message

end RunFault

namespace Memory

variable {α : Type}

/-- A float operand; the arithmetic kernels take no others. -/
def readFloats (a : Artifact) (m : Memory α) (buffer : Nat) :
    Except ExecutionFault (Shaped α) := do
  match ← m.read a buffer with
  | .floats d => return d
  | .indices _ => throw (.notFloat buffer)

def readIndices (a : Artifact) (m : Memory α) (buffer : Nat) :
    Except ExecutionFault (Shaped Int64) := do
  match ← m.read a buffer with
  | .indices d => return d
  | .floats _ => throw (.notIndex buffer)

end Memory

/-- The elements of a constant tensor of a type; an index tensor takes the number truncated. -/
def splatPayload {α : Type} [Scalar α] (type : TensorType) (value : Single) : Payload α :=
  match type.kind with
  | .float => .floats (Array.replicate type.volume (Scalar.ofSingle value))
  | .index => .indices (Array.replicate type.volume value.toIndex)

/-- Transposition of a tensor of either kind. -/
def transposePayload {α : Type} [Zero α] (perm : List Nat) (t : Tensor α) (out : Shape) :
    Except KernelFault (Payload α) :=
  match t with
  | .floats d => (Kernel.transpose perm d out).map .floats
  | .indices d => (Kernel.transpose perm d out).map .indices

namespace Instruction

variable {α : Type} [Scalar α]

/-- The result of a kernel as what is stored in one buffer. -/
def stored (buffer : Nat) (result : Except KernelFault (Array α)) :
    Except ExecutionFault (List (Nat × Payload α)) :=
  match result with
  | .ok values => .ok [(buffer, .floats values)]
  | .error fault => .error (.kernel fault)

/-- The gradients of a layer as what is stored in three buffers. -/
def storedLayer (input filter bias : Nat) (result : Except KernelFault (Kernel.LayerGradients α)) :
    Except ExecutionFault (List (Nat × Payload α)) :=
  match result with
  | .ok g => .ok [(input, .floats g.input), (filter, .floats g.filter), (bias, .floats g.bias)]
  | .error fault => .error (.kernel fault)

/-- What an instruction stores where, in order. Operands are read in order of their positions. -/
def effects (a : Artifact) (m : Memory α) (i : Instruction) :
    Except ExecutionFault (List (Nat × Payload α)) :=
  match i.op, i.buffers with
  | .alloc, [_] | .dealloc, [_] | .view, [_, _] => .ok []
  | .copy, [dst, src] => do
    let _ ← a.typeOf dst
    return [(dst, (← m.read a src).payload)]
  | .splat value, [dst] => do
    return [(dst, splatPayload (← a.typeOf dst) value)]
  | .binary op, [dst, x, y] => do
    let x ← m.readFloats a x
    let y ← m.readFloats a y
    stored dst (Kernel.binary op x y)
  | .unary op, [dst, x] => do
    let x ← m.readFloats a x
    stored dst (.ok (Kernel.unary op x))
  | .reluGrad, [dst, y, g] => do
    let y ← m.readFloats a y
    let g ← m.readFloats a g
    stored dst (.ok (Kernel.reluGrad y g))
  | .conv p, [dst, x, f, b] => do
    let x ← m.readFloats a x
    let f ← m.readFloats a f
    let b ← m.readFloats a b
    stored dst (Kernel.convolution p x f b (← a.typeOf dst).shape)
  | .convGrad p, [dx, df, db, x, f, g] => do
    let x ← m.readFloats a x
    let f ← m.readFloats a f
    let g ← m.readFloats a g
    storedLayer dx df db (Kernel.convolutionGrad p x f g)
  | .maxPool w, [dst, x] => do
    let x ← m.readFloats a x
    stored dst (Kernel.maxPool w x (← a.typeOf dst).shape)
  | .maxPoolGrad w, [dst, x, g] => do
    let x ← m.readFloats a x
    let g ← m.readFloats a g
    stored dst (Kernel.maxPoolGrad w x g)
  | .fullyConnected, [dst, x, w, b] => do
    let x ← m.readFloats a x
    let w ← m.readFloats a w
    let b ← m.readFloats a b
    stored dst (Kernel.fullyConnected x w b)
  | .fullyConnectedGrad, [dx, dw, db, x, w, g] => do
    let x ← m.readFloats a x
    let w ← m.readFloats a w
    let g ← m.readFloats a g
    storedLayer dx dw db (Kernel.fullyConnectedGrad x w g)
  | .softMax, [dst, x, _] => do
    let x ← m.readFloats a x
    stored dst (Kernel.softMax x)
  | .softMaxGrad, [dst, y, labels] => do
    let y ← m.readFloats a y
    let labels ← m.readIndices a labels
    stored dst (Kernel.softMaxGrad y labels.values.toList)
  | .normalization p, [dst, x] => do
    let x ← m.readFloats a x
    stored dst (Kernel.normalization p x)
  | .normalizationGrad p, [dst, x, g] => do
    let x ← m.readFloats a x
    let g ← m.readFloats a g
    stored dst (Kernel.normalizationGrad p x g)
  | .batchedMatMul, [dst, x, y] => do
    let x ← m.readFloats a x
    let y ← m.readFloats a y
    stored dst (Kernel.batchedMatMul x y)
  | .batchedReduce, [dst, x] => do
    let x ← m.readFloats a x
    stored dst (Kernel.batchedReduce x)
  | .batched op, [dst, x, s] => do
    let x ← m.readFloats a x
    let s ← m.readFloats a s
    stored dst (Kernel.batched op x s)
  | .transpose perm, [dst, src] => do
    let t ← m.read a src
    if perm.length ≠ t.shape.length then throw (.kernel .transposeRank)
    let out := (← a.typeOf dst).shape
    let payload ← (transposePayload perm t out).mapError .kernel
    return [(dst, payload)]
  | .sgd p, [weight, grad, momentum] => do
    let w ← m.readFloats a weight
    let g ← m.readFloats a grad
    let s ← m.readFloats a momentum
    let (w, s) ← (Kernel.descent p w g s).mapError .kernel
    return [(weight, .floats w), (momentum, .floats s)]
  | op, buffers => .error (.operandCount op.signature.length buffers.length)

/-- Stores effects in order, up to the first store that fails. -/
def commit (a : Artifact) : Memory α → List (Nat × Payload α) →
    Except ExecutionFault Unit × Memory α
  | m, [] => (.ok (), m)
  | m, (buffer, payload) :: rest =>
    match m.store a buffer payload with
    | .ok m => commit a m rest
    | .error fault => (.error fault, m)

/-- Executes one instruction; the memory is what is left, also after a failure. -/
def execute (a : Artifact) (m : Memory α) (i : Instruction) :
    Except RunFault Unit × Memory α :=
  let (result, m) : Except ExecutionFault Unit × Memory α :=
    match i.effects a m with
    | .ok writes => commit a m writes
    | .error fault => (.error fault, m)
  (result.mapError (⟨some i, ·⟩), m)

end Instruction

namespace Artifact

variable {α : Type} [Scalar α]

/-- Executes instructions in order, up to the first that fails. -/
def runFrom (a : Artifact) : Memory α → List Instruction → Except RunFault Unit × Memory α
  | m, [] => (.ok (), m)
  | m, i :: rest =>
    match i.execute a m with
    | (.ok (), m) => runFrom a m rest
    | (.error fault, m) => (.error fault, m)

/-- Executes the whole stream. -/
def run (a : Artifact) (m : Memory α) : Except RunFault Unit × Memory α :=
  a.runFrom m a.instructions

end Artifact

end TensorCompiler
