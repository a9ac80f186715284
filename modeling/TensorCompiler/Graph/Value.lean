import TensorCompiler.Graph.Typing

/-!
Operands of graph nodes: a result of another node, or a read of storage.
-/

namespace TensorCompiler

inductive Value where
  | node (node result : Nat)
  | storage (ref : StorageRef)
deriving DecidableEq, Repr

namespace Value

/-- `%3`, or `%3#1` for a later result. -/
def text : Value → String
  | node n 0 => "%" ++ Nat.repr n
  | node n r => "%" ++ Nat.repr n ++ "#" ++ Nat.repr r
  | storage ref => ref.text

def producer? : Value → Option Nat
  | node n _ => some n
  | storage _ => none

def storage? : Value → Option StorageRef
  | node .. => none
  | storage ref => some ref

end Value

end TensorCompiler
