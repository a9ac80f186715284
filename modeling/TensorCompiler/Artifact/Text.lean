import TensorCompiler.Artifact.Basic
import TensorCompiler.Number.Decimal
import TensorCompiler.Text

/-!
The dump of an artifact: its declarations and its code, one line each.
-/

namespace TensorCompiler

namespace Opcode

def field (name value : String) : String := name ++ ": " ++ value

def fields (items : List String) : String := " \x7b" ++ ", ".intercalate items ++ "\x7d"

def windowFields (w : Window) : List String :=
  [field "kernel" (Nat.repr w.kernel), field "stride" (Nat.repr w.stride),
    field "pad" (Nat.repr w.pad)]

/-- The parameters of an operation, after its operands. -/
def parameterText : Opcode → String
  | splat value => fields [field "value" value.display]
  | transpose perm => fields [field "perm" (Text.natList perm)]
  | conv p | convGrad p => fields (field "depth" (Nat.repr p.depth) :: windowFields p.toWindow)
  | maxPool w | maxPoolGrad w => fields (windowFields w)
  | normalization p | normalizationGrad p =>
    fields [field "half_window" (Nat.repr p.halfWindow), field "alpha" p.alpha.display,
      field "beta" p.beta.display, field "k" p.k.display]
  | sgd p =>
    fields [field "lr" p.learningRate.display, field "momentum" p.momentum.display,
      field "l1" p.l1Decay.display, field "l2" p.l2Decay.display,
      field "batch" (Nat.repr p.batchSize)]
  | _ => ""

end Opcode

namespace Operand

/-- `@in %3`. -/
def text (o : Operand) : String := "@" ++ o.access.text ++ " %" ++ Nat.repr o.buffer

end Operand

namespace Instruction

def operandText (i : Instruction) : String := ", ".intercalate (i.operands.map (·.text))

def text (i : Instruction) : String :=
  i.op.name ++ (if i.operands = [] then "" else " ") ++ i.operandText ++ i.op.parameterText

end Instruction

namespace BufferKind

def text : BufferKind → String
  | weight storage => "weight " ++ storage.text
  | activation => "activation"
  | view source => "view %" ++ Nat.repr source
  | state => "state"

end BufferKind

namespace Artifact

def bufferLine (plan : Plan) (b : Buffer) : String :=
  let slot :=
    if b.isActivation then
      match plan.slotOf b.id with
      | some s => " slot " ++ Nat.repr s.id ++ " @ " ++ Nat.repr s.offset
      | none => ""
    else ""
  "    %" ++ Nat.repr b.id ++ " = " ++ b.kind.text ++ " " ++ Text.quoted b.name ++ " : " ++
    b.type.text ++ slot ++ "\n"

def instructionLine (position : Nat) (i : Instruction) : String :=
  "    " ++ Nat.repr position ++ ": " ++ i.text ++ "\n"

def text (a : Artifact) : String :=
  "function @" ++ a.name ++ " \x7b\n  declare \x7b\n" ++
    String.join (a.buffers.map (bufferLine a.plan)) ++ "  \x7d\n  code \x7b\n" ++
    String.join (a.instructions.zipIdx.map fun (i, position) => instructionLine position i) ++
    "  \x7d\n\x7d\n"

end Artifact

end TensorCompiler
