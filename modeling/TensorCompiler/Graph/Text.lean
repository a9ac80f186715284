import TensorCompiler.Graph.Function

/-!
Dumps of functions: one line per node, and a drawing of the data flow in the DOT language.
-/

namespace TensorCompiler

namespace Node

def text (n : Node) (id : Nat) : String :=
  let result := if n.results = [] then "" else "%" ++ Nat.repr id ++ " = "
  let operands := ", ".intercalate (n.inputs.map (·.text))
  let tail :=
    match n.destination? with
    | some destination => " -> " ++ destination.text
    | none =>
      if n.results = [] then "" else " : " ++ ", ".intercalate (n.results.map (·.text))
  "  " ++ result ++ n.op.name ++ " " ++ Text.quoted n.name ++ "(" ++ operands ++ ")" ++ tail ++ "\n"

def dotEdge (id : Nat) : Value → String
  | .node producer _ => "  n" ++ Nat.repr producer ++ " -> n" ++ Nat.repr id ++ ";\n"
  | .storage ref => "  " ++ Text.quoted ref.text ++ " -> n" ++ Nat.repr id ++ ";\n"

def dotText (n : Node) (id : Nat) : String :=
  let label := "  n" ++ Nat.repr id ++ " [label=" ++ Text.quoted (n.name ++ "\\n" ++ n.op.name) ++
    "];\n"
  let saved :=
    match n.destination? with
    | some destination => "  n" ++ Nat.repr id ++ " -> " ++ Text.quoted destination.text ++ ";\n"
    | none => ""
  label ++ String.join (n.inputs.map (dotEdge id)) ++ saved

end Node

namespace Function

def text (f : Function) : String :=
  "func @" ++ f.name ++ " \x7b\n" ++
    String.join (f.nodes.zipIdx.map fun (n, id) => n.text id) ++ "\x7d\n"

def dotStorage (s : Storage) (ref : StorageRef) : String :=
  let label := (s.name? ref).getD "?"
  "  " ++ Text.quoted ref.text ++ " [shape=box, label=" ++ Text.quoted label ++ "];\n"

def dot (s : Storage) (f : Function) : String :=
  "digraph " ++ Text.quoted f.name ++ " \x7b\n" ++
    String.join (f.storageRefs.map (dotStorage s)) ++
    String.join (f.nodes.zipIdx.map fun (n, id) => n.dotText id) ++ "\x7d\n"

end Function

end TensorCompiler
