import TensorCompiler.Graph.DeadNodes
import TensorCompiler.Random.Uniform

/-!
Modules: storage, the functions over it, and the generator of initial weights. An operation that
may fail returns its result together with the module it leaves.
-/

namespace TensorCompiler

structure Module where
  storage : Storage
  functions : IdMap Function
  /-- The names of functions that are taken. -/
  functionNames : List String
  /-- The number of the next function; numbers are never used twice. -/
  nextFunction : Nat
  generator : Random.Generator

namespace Module

def withSeed (seed : UInt64) : Module :=
  { storage := .empty, functions := .empty, functionNames := [], nextFunction := 0
    generator := .ofSeed seed }

/-- Adds a function under a free name, and gives its number. -/
def insertFunction (m : Module) (f : Function) : Nat × Module :=
  let name := Names.fresh m.functionNames f.name
  (m.nextFunction, { m with
    functions := m.functions.insert m.nextFunction { f with name }
    functionNames := m.functionNames ++ [name]
    nextFunction := m.nextFunction + 1 })

def createFunction (m : Module) (name : String) : Nat × Module :=
  m.insertFunction { name, nodes := [] }

def function (m : Module) (id : Nat) : Except Error Function :=
  match m.functions.get? id with
  | some f => .ok f
  | none => .error (.unknownFunction id)

def functionByName? (m : Module) (name : String) : Option Nat :=
  (m.functions.entries.find? fun (_, f) => f.name = name).map (·.1)

/-- A copy under another name, with the same nodes over the same storage. -/
def cloneFunction (m : Module) (id : Nat) (name : String) : Except Error (Nat × Module) := do
  return m.insertFunction { ← m.function id with name }

/-- The module without a function, whose name is free again. -/
def withoutFunction (m : Module) (id : Nat) : Module :=
  { m with
    functions := m.functions.erase id
    functionNames := Names.release m.functionNames ((m.functions.get? id).toList.map (·.name)) }

/-- Removes a function. -/
def eraseFunction (m : Module) (id : Nat) : Except Error (Function × Module) := do
  return (← m.function id, m.withoutFunction id)

def verifyFunction (m : Module) (id : Nat) : Except Error Unit := do
  (← m.function id).verify m.storage

/-- How often the functions of the module name a storage. -/
def storageUsers (m : Module) (ref : StorageRef) : Nat :=
  m.functions.values.foldl (fun total f => total + f.storageUses ref) 0

def setFunction (m : Module) (id : Nat) (f : Function) : Module :=
  { m with functions := m.functions.insert id f }

/-- Removes the dead nodes of a function, and gives their number. -/
def eliminateDead (m : Module) (id : Nat) : Except Error (Nat × Module) := do
  let f ← m.function id
  return (f.deadCount, m.setFunction id f.eliminateDead)

/-- The declaration of a variable. -/
def variableAt (m : Module) (id : Nat) : Except Error Variable :=
  match m.storage.vars[id]? with
  | some v => .ok v
  | none => .error (.unknownStorage (.var id))

/-- The declaration of a placeholder. -/
def placeholderAt (m : Module) (id : Nat) : Except Error Placeholder :=
  match m.storage.placeholders[id]? with
  | some p => .ok p
  | none => .error (.unknownStorage (.placeholder id))

def storageType (m : Module) (ref : StorageRef) : Except Error TensorType :=
  match m.storage.type? ref with
  | some type => .ok type
  | none => .error (.unknownStorage ref)

def storageName (m : Module) (ref : StorageRef) : Except Error String :=
  match m.storage.name? ref with
  | some name => .ok name
  | none => .error (.unknownStorage ref)

/-- Replaces what a variable holds, its type included. -/
def setPayload (m : Module) (id : Nat) (t : Tensor Single) : Except Error Module := do
  let _ ← m.variableAt id
  return { m with storage := m.storage.setPayload id t }

/-- Replaces the elements of a variable; its type stays. -/
def setElements (m : Module) (id : Nat) (elements : Payload Single) : Except Error Module := do
  let v ← m.variableAt id
  m.setPayload id (← (v.payload.withPayload elements).mapError .tensor)

def setTrainable (m : Module) (id : Nat) (trainable : Bool) : Except Error Module := do
  let _ ← m.variableAt id
  return { m with storage := m.storage.setTrainable id trainable }

/-- Adds a variable, and gives its number. -/
def createVariable (m : Module) (name : String) (payload : Tensor Single) (isPublic : Bool)
    (trainable : Bool) : Nat × Module :=
  (m.storage.vars.length,
    { m with storage := m.storage.addVariable name payload isPublic trainable })

/-- Adds a placeholder, and gives its number. -/
def createPlaceholder (m : Module) (name : String) (type : TensorType) (trainable : Bool) :
    Nat × Module :=
  (m.storage.placeholders.length,
    { m with storage := m.storage.addPlaceholder name type trainable })

end Module

end TensorCompiler
