import TensorCompiler.Names
import TensorCompiler.Operator.Basic
import TensorCompiler.Tensor.Basic

/-!
The storage of a module: variables, which keep a tensor between runs, and placeholders, which a
context binds for each run. Both are numbered in order of creation and never removed.
-/

namespace TensorCompiler

structure Variable where
  name : String
  isPublic : Bool
  trainable : Bool
  payload : Tensor Single

/-- A named slot that is bound to a tensor of its type for each run. -/
structure Placeholder where
  name : String
  type : TensorType
  trainable : Bool

structure Storage where
  vars : List Variable
  placeholders : List Placeholder
  /-- The names of variables that are taken. -/
  varNames : List String := vars.map (·.name)
  /-- The names of placeholders that are taken. -/
  placeholderNames : List String := placeholders.map (·.name)

namespace Storage

def empty : Storage := { vars := [], placeholders := [] }

/-- Adds a variable; its number is the number of variables before it. -/
def addVariable (s : Storage) (name : String) (payload : Tensor Single) (isPublic : Bool)
    (trainable : Bool) : Storage :=
  let name := Names.fresh s.varNames name
  { s with
    vars := s.vars ++ [{ name, isPublic, trainable, payload }]
    varNames := s.varNames ++ [name] }

/-- Adds a placeholder; its number is the number of placeholders before it. -/
def addPlaceholder (s : Storage) (name : String) (type : TensorType) (trainable : Bool) :
    Storage :=
  let name := Names.fresh s.placeholderNames name
  { s with
    placeholders := s.placeholders ++ [{ name, type, trainable }]
    placeholderNames := s.placeholderNames ++ [name] }

def type? (s : Storage) : StorageRef → Option TensorType
  | .var id => (s.vars[id]?).map (·.payload.type)
  | .placeholder id => (s.placeholders[id]?).map (·.type)

def name? (s : Storage) : StorageRef → Option String
  | .var id => (s.vars[id]?).map (·.name)
  | .placeholder id => (s.placeholders[id]?).map (·.name)

def contains (s : Storage) (ref : StorageRef) : Bool := (s.type? ref).isSome

def isTrainable (s : Storage) : StorageRef → Bool
  | .var id => ((s.vars[id]?).map (·.trainable)).getD false
  | .placeholder id => ((s.placeholders[id]?).map (·.trainable)).getD false

/-- Storage that training updates: trainable, and of floats. -/
def isTrainableFloat (s : Storage) (ref : StorageRef) : Bool :=
  s.isTrainable ref && ((s.type? ref).map (·.isFloat)).getD false

def variableByName? (s : Storage) (name : String) : Option Nat :=
  s.vars.findIdx? (·.name = name)

def placeholderByName? (s : Storage) (name : String) : Option Nat :=
  s.placeholders.findIdx? (·.name = name)

/-- Every variable and then every placeholder, in order of their numbers. -/
def refs (s : Storage) : List StorageRef :=
  (List.range s.vars.length).map .var ++
    (List.range s.placeholders.length).map .placeholder

/-- Replaces what a variable holds; its type becomes that of the new tensor. -/
def setPayload (s : Storage) (id : Nat) (t : Tensor Single) : Storage :=
  { s with vars := s.vars.modify id fun v => { v with payload := t } }

def setTrainable (s : Storage) (id : Nat) (trainable : Bool) : Storage :=
  { s with vars := s.vars.modify id fun v => { v with trainable } }

end Storage

end TensorCompiler
