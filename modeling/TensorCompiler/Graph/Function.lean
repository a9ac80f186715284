import TensorCompiler.Error
import TensorCompiler.IdMap

/-!
Computation graphs: the nodes of a function in order of creation. A node reads only nodes before
it, so the order is an order of evaluation. Who reads a node is kept on its use-list, which grows as
readers are added; verification compares the list with the operands. The names that nodes have taken
are recorded beside them.
-/

namespace TensorCompiler

structure Node where
  name : String
  op : Operator
  inputs : List Value
  results : List TensorType
deriving DecidableEq, Repr

namespace Node

/-- The nodes a node reads, one entry for each operand. -/
def producers (n : Node) : List Nat := n.inputs.filterMap Value.producer?

/-- The storage a node reads. -/
def storageReads (n : Node) : List StorageRef := n.inputs.filterMap Value.storage?

/-- The storage that a save overwrites. -/
def destination? (n : Node) : Option StorageRef :=
  match n.op with
  | .save destination => some destination
  | _ => none

/-- The storage a node names: its operands, and the destination of a save. -/
def storageRefs (n : Node) : List StorageRef := n.storageReads ++ n.destination?.toList

end Node

/-- The use-list of every node: the nodes that read it, one entry for each operand. -/
abbrev UseLists := IdMap (List Nat)

namespace UseLists

def users (uses : UseLists) (id : Nat) : List Nat := (uses.get? id).getD []

/-- Enters a reader on the lists of the nodes it reads, once for each operand. -/
def enter (uses : UseLists) (producers : List Nat) (reader : Nat) : UseLists :=
  producers.foldl (fun uses id => uses.insert id (users uses id ++ [reader])) uses

/-- Enters a node on the lists of the nodes it reads; its own list is empty. -/
def wire (uses : UseLists) (producers : List Nat) (id : Nat) : UseLists :=
  (enter uses producers id).insert id []

/-- The lists of nodes that are wired one after the other. -/
def ofNodes (nodes : List Node) : UseLists :=
  nodes.zipIdx.foldl (fun uses (n, id) => wire uses n.producers id) .empty

end UseLists

structure Function where
  name : String
  nodes : List Node
  uses : UseLists := .ofNodes nodes
  /-- The names of nodes that are taken. -/
  nodeNames : List String := nodes.map (·.name)
deriving DecidableEq, Repr

namespace Function

def node? (f : Function) (id : Nat) : Option Node := f.nodes[id]?

def size (f : Function) : Nat := f.nodes.length

def nodeByName? (f : Function) (name : String) : Option Nat := f.nodes.findIdx? (·.name = name)

/-- The use-list of a node. -/
def users (f : Function) (id : Nat) : List Nat := f.uses.users id

/-- The nodes with the node as an operand in ascending order, one entry for each operand. -/
def readers (f : Function) (id : Nat) : List Nat :=
  f.nodes.zipIdx.flatMap fun (n, i) => List.replicate (n.producers.count id) i

/-- Every storage the function reads or saves to, once each and in order. -/
def storageRefs (f : Function) : List StorageRef :=
  (f.nodes.flatMap Node.storageRefs).eraseDups.mergeSort StorageRef.le

/-- How often the function names a storage. -/
def storageUses (f : Function) (ref : StorageRef) : Nat :=
  (f.nodes.flatMap Node.storageRefs).count ref

def countNodes (f : Function) (p : Operator → Bool) : Nat := f.nodes.countP fun n => p n.op

/-- The type of an operand. -/
def valueType (s : Storage) (f : Function) : Value → Except Error TensorType
  | .storage ref =>
    match s.type? ref with
    | some type => .ok type
    | none => .error (.unknownStorage ref)
  | .node id result =>
    match (f.node? id).bind (·.results[result]?) with
    | some type => .ok type
    | none => .error (.verification f.name (Value.node id result).text .undefinedValue)

/-- The weight of a descent node is storage. -/
def hasWeight (op : Operator) (inputs : List Value) : Bool :=
  match op with
  | .sgd _ => ((inputs[1]?).bind Value.storage?).isSome
  | _ => true

/-- The function with one more node, wired to the nodes it reads, whose name is taken. -/
def push (f : Function) (n : Node) : Function :=
  { f with
    nodes := f.nodes ++ [n]
    uses := f.uses.wire n.producers f.size
    nodeNames := f.nodeNames ++ [n.name] }

/-- Appends a node whose result types follow from its operands; its number is the function's size
before. -/
def append (s : Storage) (f : Function) (name : String) (op : Operator) (inputs : List Value) :
    Except Error Function := do
  let operands ← inputs.mapM (f.valueType s)
  if !hasWeight op inputs then throw (.descentWeight op)
  let results ← (Typing.resultTypes s op operands).mapError .ofTyping
  let name := Names.fresh f.nodeNames name
  return f.push { name, op, inputs, results }

/-- The types of a node's operands, all of which are defined before the node `id`. -/
def operandType (s : Storage) (f : Function) (id : Nat) (value : Value) :
    Except VerificationFault TensorType :=
  match value with
  | .node producer result =>
    if id ≤ producer then .error (.undefinedOperand value)
    else
      match (f.node? producer).bind (·.results[result]?) with
      | some type => .ok type
      | none => .error (.missingResult value)
  | .storage ref =>
    match s.type? ref with
    | some type => .ok type
    | none => .error (.unresolvedStorage ref)

/-- One node on its own: its operands are defined, and its recorded types follow from theirs. -/
def checkNode (s : Storage) (f : Function) (id : Nat) (n : Node) :
    Except VerificationFault Unit := do
  if n.inputs.length ≠ n.op.arity then throw (.operandCount n.op n.inputs.length)
  let operands ← n.inputs.mapM (f.operandType s id)
  if !hasWeight n.op n.inputs then throw .descentWeight
  match n.destination? with
  | some ref => if !s.contains ref then throw (.unresolvedDestination ref)
  | none => pure ()
  let inferred ← (Typing.resultTypes s n.op operands).mapError .operandTypes
  if inferred ≠ n.results then throw (.resultTypes n.results inferred)

/-- The use-list of a node names its readers, and a node that is no sink has one. -/
def checkUsed (f : Function) (id : Nat) (n : Node) : Except VerificationFault Unit := do
  if !(f.users id).isPerm (f.readers id) then throw (.useList (f.users id) (f.readers id))
  if !n.op.isSink && (f.users id).isEmpty then throw .noUsers

/-- Every node is well typed, and then every node is used. -/
def verify (s : Storage) (f : Function) : Except Error Unit := do
  f.nodes.zipIdx.forM fun (n, id) =>
    (f.checkNode s id n).mapError (.verification f.name n.name ·)
  f.nodes.zipIdx.forM fun (n, id) =>
    (f.checkUsed id n).mapError (.verification f.name n.name ·)

end Function

end TensorCompiler
