import TensorCompiler.Artifact.Plan

/-!
Compiled functions: buffer declarations, an instruction stream over them, and the plan of the
activation arena. `verify` checks the three against each other.
-/

namespace TensorCompiler

structure Artifact where
  name : String
  buffers : List Buffer
  instructions : List Instruction
  plan : Plan
deriving DecidableEq

/-- Why an artifact is not consistent, or a function has no artifact. -/
inductive ArtifactFault where
  | bufferPosition (id position : Nat)
  | operandCount (position : Nat) (op : Opcode) (found : Nat)
  | access (position : Nat) (op : Opcode) (buffer : Nat) (found expected : Access)
  | undeclared (position buffer : Nat)
  | plan (fault : PlanFault)
  | stalePlan
  | neverAllocated (name : String)
  | outsideRange (position : Nat) (op : Opcode) (name : String) (range : LiveRange)
  | noBuffer (value : String)
  | noResult (node : String)
deriving DecidableEq, Repr

namespace ArtifactFault

def instructionText (position : Nat) (op : Opcode) : String :=
  "instruction " ++ Nat.repr position ++ " (" ++ op.name ++ ")"

def message : ArtifactFault → String
  | bufferPosition id position =>
    "buffer " ++ Nat.repr id ++ " is declared at index " ++ Nat.repr position
  | operandCount position op found =>
    instructionText position op ++ " has " ++ Nat.repr found ++ " operands, expected " ++
      Nat.repr op.signature.length
  | access position op buffer found expected =>
    instructionText position op ++ " accesses buffer " ++ Nat.repr buffer ++ " as " ++
      found.name ++ ", expected " ++ expected.name
  | undeclared position buffer =>
    "instruction " ++ Nat.repr position ++ " references undeclared buffer " ++ Nat.repr buffer
  | plan fault => fault.message
  | stalePlan => "buffer plan is stale for this instruction stream"
  | neverAllocated name => "activation '" ++ name ++ "' is never allocated"
  | outsideRange position op name range =>
    instructionText position op ++ " accesses '" ++ name ++ "' outside its live range [" ++
      Nat.repr range.start ++ ", " ++ Nat.repr range.stop ++ "]"
  | noBuffer value => "value " ++ value ++ " has no buffer"
  | noResult node => "reshape '" ++ node ++ "' has no result"

end ArtifactFault

namespace Artifact

def buffer? (a : Artifact) (id : Nat) : Option Buffer := a.buffers[id]?

/-- The buffers of module storage, in order of declaration. -/
def weights (a : Artifact) : List (Nat × StorageRef) :=
  a.buffers.filterMap fun b =>
    match b.kind with
    | .weight storage => some (b.id, storage)
    | _ => none

def stateBuffers (a : Artifact) : List Buffer := a.buffers.filter (·.kind = .state)

/-- Every single-precision parameter of the instructions. -/
def numbers (a : Artifact) : List Single := a.instructions.flatMap (·.op.numbers)

/-- Equality as numbers compare: an artifact with a not-a-number differs even from its copy. -/
def comparesEqual (a b : Artifact) : Bool := a = b && a.numbers.all fun x => !x.isNaN

def checkPositions (buffers : List Buffer) : Except ArtifactFault Unit :=
  buffers.zipIdx.forM fun (b, position) =>
    if b.id = position then .ok () else .error (.bufferPosition b.id position)

/-- The operands of an instruction fit its operation, and their buffers are declared. -/
def checkOperands (buffers : List Buffer) (position : Nat) (i : Instruction) :
    Except ArtifactFault Unit :=
  if i.operands.length ≠ i.op.signature.length then
    .error (.operandCount position i.op i.operands.length)
  else
    (i.operands.zip i.op.signature).forM fun (operand, expected) =>
      if operand.access ≠ expected then
        .error (.access position i.op operand.buffer operand.access expected)
      else if operand.buffer < buffers.length then .ok ()
      else .error (.undeclared position operand.buffer)

/-- Every access to an activation, also through a view, is between its markers. -/
def checkAccesses (a : Artifact) (ranges : IdMap LiveRange) (position : Nat) (i : Instruction) :
    Except ArtifactFault Unit :=
  if i.op.isMarker then .ok ()
  else
    i.operands.forM fun operand =>
      match ranges.get? (a.plan.root operand.buffer) with
      | none => .ok ()
      | some range =>
        if range.covers position then .ok ()
        else
          let name := ((a.buffer? operand.buffer).map (·.name)).getD ""
          .error (.outsideRange position i.op name range)

def checkAllocated (buffers : List Buffer) (ranges : IdMap LiveRange) :
    Except ArtifactFault Unit :=
  buffers.forM fun b =>
    if b.isActivation && !ranges.contains b.id then .error (.neverAllocated b.name) else .ok ()

/-- Checks operand signatures, lifetimes and the plan. -/
def verify (a : Artifact) : Except ArtifactFault Unit := do
  checkPositions a.buffers
  a.instructions.zipIdx.forM fun (i, position) => checkOperands a.buffers position i
  let ranges ← (Plan.liveRangesOf a.buffers a.instructions).mapError .plan
  if ranges ≠ a.plan.liveRanges then throw .stalePlan
  checkAllocated a.buffers ranges
  a.instructions.zipIdx.forM fun (i, position) => a.checkAccesses ranges position i
  a.plan.verify.mapError .plan

/-- The artifact with a fresh plan for its buffers and instructions. -/
def replan (a : Artifact) (reuse : Bool) : Except PlanFault Artifact := do
  return { a with plan := ← Plan.make reuse a.buffers a.instructions }

end Artifact

end TensorCompiler
