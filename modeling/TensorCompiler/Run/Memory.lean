import TensorCompiler.Artifact.Basic
import TensorCompiler.Kernel.Access
import TensorCompiler.Tensor.Basic

/-!
The memory of one run: the module's variables, the bound placeholders, the artifact's optimizer
state, and one tensor per slot of the arena. A buffer is looked up through the root of its view
and read under its own type. A write that fails returns no memory, so it cannot have changed one.
-/

namespace TensorCompiler

/-- Where a buffer's elements are. -/
inductive Location where
  | variable (id : Nat)
  | placeholder (id : Nat)
  | state (buffer : Nat)
  | slot (index : Nat)
deriving DecidableEq, Repr

namespace Location

def text : Location → String
  | .variable id => "Variable(VariableId(" ++ Nat.repr id ++ "))"
  | .placeholder id => "Placeholder(PlaceholderId(" ++ Nat.repr id ++ "))"
  | .state buffer => "State(" ++ PlanFault.bufferText buffer ++ ")"
  | .slot index => "Slot(" ++ Nat.repr index ++ ")"

end Location

/-- Why an access or an instruction fails. -/
inductive ExecutionFault where
  | unknownBuffer (buffer : Nat)
  | noSlot (name : String)
  | unresolvedView (name : String)
  | notMaterialised (location : Location)
  | tensor (fault : TensorError)
  | writeType (found expected : TensorType)
  | operandCount (expected found : Nat)
  | notFloat (buffer : Nat)
  | notIndex (buffer : Nat)
  | kernel (fault : KernelFault)
deriving DecidableEq, Repr

namespace ExecutionFault

def message : ExecutionFault → String
  | unknownBuffer buffer => "unknown buffer " ++ Nat.repr buffer
  | noSlot name => "activation '" ++ name ++ "' has no slot"
  | unresolvedView name => "view '" ++ name ++ "' does not resolve to a storage buffer"
  | notMaterialised location => location.text ++ " is not materialised"
  | tensor fault => fault.message
  | writeType found expected =>
    "writing " ++ found.text ++ " into buffer of type " ++ expected.text
  | operandCount expected found =>
    "expected " ++ Nat.repr expected ++ " operands, found " ++ Nat.repr found
  | notFloat buffer => "index elements in buffer " ++ Nat.repr buffer
  | notIndex buffer => "buffer " ++ Nat.repr buffer ++ " holds float elements, expected index"
  | kernel fault => fault.message

end ExecutionFault

structure Memory (α : Type) where
  vars : List (Tensor α)
  bindings : IdMap (Tensor α)
  state : IdMap (Tensor α)
  slots : List (Tensor α)

namespace Artifact

def typeOf (a : Artifact) (buffer : Nat) : Except ExecutionFault TensorType :=
  match a.buffer? buffer with
  | some declared => .ok declared.type
  | none => .error (.unknownBuffer buffer)

/-- The location of a buffer, found at the root of its view. -/
def locate (a : Artifact) (buffer : Nat) : Except ExecutionFault Location :=
  let root := a.plan.root buffer
  match a.buffer? root with
  | none => .error (.unknownBuffer root)
  | some declared =>
    match declared.kind with
    | .weight (.var id) => .ok (.variable id)
    | .weight (.placeholder id) => .ok (.placeholder id)
    | .state => .ok (.state root)
    | .activation =>
      match a.plan.assignments.get? root with
      | some slot => .ok (.slot slot)
      | none => .error (.noSlot declared.name)
    | .view _ => .error (.unresolvedView declared.name)

end Artifact

namespace Memory

variable {α : Type}

/-- The memory a run starts with: every slot of the plan is zero. -/
def start [Zero α] (a : Artifact) (vars : List (Tensor α))
    (bindings state : IdMap (Tensor α)) : Memory α :=
  { vars, bindings, state, slots := a.plan.slots.map fun s => .zeros ⟨s.kind, [s.len]⟩ }

def get? (m : Memory α) : Location → Option (Tensor α)
  | .variable id => m.vars[id]?
  | .placeholder id => m.bindings.get? id
  | .state buffer => m.state.get? buffer
  | .slot index => m.slots[index]?

def set (m : Memory α) (t : Tensor α) : Location → Memory α
  | .variable id => { m with vars := m.vars.set id t }
  | .placeholder id => { m with bindings := m.bindings.insert id t }
  | .state buffer => { m with state := m.state.insert buffer t }
  | .slot index => { m with slots := m.slots.set index t }

def fetch (m : Memory α) (location : Location) : Except ExecutionFault (Tensor α) :=
  match m.get? location with
  | some t => .ok t
  | none => .error (.notMaterialised location)

/-- The elements of a buffer, under the buffer's type. -/
def read (a : Artifact) (m : Memory α) (buffer : Nat) : Except ExecutionFault (Tensor α) := do
  let type ← a.typeOf buffer
  let source ← m.fetch (← a.locate buffer)
  (Tensor.ofPayload type source.payload).mapError .tensor

/-- Replaces the elements of a buffer by those of a tensor of the buffer's type; what lies at the
location keeps its own type. -/
def write (a : Artifact) (m : Memory α) (buffer : Nat) (t : Tensor α) :
    Except ExecutionFault (Memory α) := do
  let expected ← a.typeOf buffer
  if t.type ≠ expected then throw (.writeType t.type expected)
  let location ← a.locate buffer
  let target ← m.fetch location
  let updated ← (target.withPayload t.payload).mapError .tensor
  return m.set updated location

/-- Writes bare elements, as a tensor of the buffer's type. -/
def store (a : Artifact) (m : Memory α) (buffer : Nat) (payload : Payload α) :
    Except ExecutionFault (Memory α) := do
  let t ← (Tensor.ofPayload (← a.typeOf buffer) payload).mapError .tensor
  m.write a buffer t

end Memory

end TensorCompiler
