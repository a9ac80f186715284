import TensorCompiler.Graph.Value
import TensorCompiler.Run.Interpreter
import TensorCompiler.Training.Settings

/-!
The failures of building, verifying, differentiating, lowering and running, with their messages.
-/

namespace TensorCompiler

/-- What verification finds wrong with a node. -/
inductive VerificationFault where
  | operandCount (op : Operator) (found : Nat)
  | undefinedOperand (value : Value)
  | missingResult (value : Value)
  | unresolvedStorage (ref : StorageRef)
  | descentWeight
  | unresolvedDestination (ref : StorageRef)
  | operandTypes (error : TypingError)
  | resultTypes (recorded inferred : List TensorType)
  /-- Who reads a node according to its use-list, and according to the operands of the nodes. -/
  | useList (recorded expected : List Nat)
  | noUsers
  | undefinedValue
deriving DecidableEq, Repr

namespace VerificationFault

def typeList (types : List TensorType) : String :=
  Text.list (types.map fun t => Text.quoted t.text)

/-- The numbers of nodes in ascending order. -/
def nodeList (ids : List Nat) : String :=
  Text.list (ids.mergeSort.map fun id => "NodeId(" ++ Nat.repr id ++ ")")

def message : VerificationFault → String
  | operandCount op found =>
    op.name ++ " expects " ++ Nat.repr op.arity ++ " operands, found " ++ Nat.repr found
  | undefinedOperand value => "operand " ++ value.text ++ " is not defined before use"
  | missingResult value => "operand " ++ value.text ++ " names a missing result"
  | unresolvedStorage ref => "storage " ++ ref.text ++ " does not resolve"
  | descentWeight => "Sgd weight must be a variable or placeholder"
  | unresolvedDestination ref => "destination " ++ ref.text ++ " does not resolve"
  | operandTypes error => "operand types are invalid: " ++ error.message
  | resultTypes recorded inferred =>
    "recorded result types " ++ typeList recorded ++ " differ from inferred " ++ typeList inferred
  | useList recorded expected =>
    "use-list " ++ nodeList recorded ++ " does not match operand edges " ++ nodeList expected
  | noUsers => "node has no users"
  | undefinedValue => "value is not defined in this function"

end VerificationFault

/-- Why a function has no derivative. -/
inductive DifferentiationFault where
  | settings (fault : SettingsFault)
  | noRule (op : Operator) (node : String)
deriving DecidableEq, Repr

namespace DifferentiationFault

def message : DifferentiationFault → String
  | settings fault => fault.message
  | noRule op node => "no gradient rule for " ++ op.name ++ " node '" ++ node ++ "'"

end DifferentiationFault

inductive Error where
  | typing (error : TypingError)
  /-- The weight of a descent node is not storage. -/
  | descentWeight (op : Operator)
  /-- A convolution layer on an input that is not NHWC. -/
  | convolutionInput (type : TensorType)
  /-- A dense layer on an input of rank less than 2. -/
  | denseInput (type : TensorType)
  | tensor (error : TensorError)
  | verification (function node : String) (fault : VerificationFault)
  | differentiation (function : String) (fault : DifferentiationFault)
  | lowering (function : String) (fault : ArtifactFault)
  | unboundPlaceholder (name : String)
  | bindingMismatch (name : String) (expected found : TensorType)
  | unknownFunction (id : Nat)
  | unknownStorage (ref : StorageRef)
  | missingSettings
  | notCompiled (key : String)
  | run (fault : RunFault)
deriving DecidableEq, Repr

namespace Error

def ofTyping : TypingError → Error
  | .unknownStorage ref => unknownStorage ref
  | error => typing error

def functionText (id : Nat) : String := "fn#" ++ Nat.repr id

def message : Error → String
  | typing error => error.message
  | descentWeight op =>
    TensorError.shapeText op.name "weight operand must be a variable or placeholder"
  | convolutionInput type =>
    TensorError.shapeText "Conv" ("input must be NHWC, found " ++ type.text)
  | denseInput type =>
    TensorError.shapeText "FullyConnected" ("input must have rank >= 2, found " ++ type.text)
  | tensor error => error.message
  | verification function node fault =>
    "verification of function '" ++ function ++ "' failed at node '" ++ node ++ "': " ++
      fault.message
  | differentiation function fault =>
    "cannot differentiate function '" ++ function ++ "': " ++ fault.message
  | lowering function fault => "lowering of function '" ++ function ++ "' failed: " ++ fault.message
  | unboundPlaceholder name => "placeholder '" ++ name ++ "' is not bound in the context"
  | bindingMismatch name expected found =>
    "placeholder '" ++ name ++ "' is bound to " ++ found.text ++ ", expected " ++ expected.text
  | unknownFunction id => "unknown function '" ++ functionText id ++ "'"
  | unknownStorage ref => TypingError.unknownText ref
  | missingSettings => "training compilation requires a training configuration"
  | notCompiled key => "no compiled artifact named '" ++ key ++ "'"
  | run fault => fault.message

end Error

end TensorCompiler
