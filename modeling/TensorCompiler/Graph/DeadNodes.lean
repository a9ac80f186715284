import TensorCompiler.Graph.Function

/-!
Elimination of dead nodes: a node is live when it is a sink or a live node reads it. The live
nodes keep their order and are renumbered, and the others give their names back.
-/

namespace TensorCompiler

namespace Value

/-- The operand after its producer has got a new number. -/
def renumber (number : Nat → Nat) : Value → Value
  | node id result => node (number id) result
  | storage ref => storage ref

end Value

namespace Function

/-- The live nodes among `nodes`, seen from the last node back: those that are sinks, and those
that a live node reads. -/
def mark (nodes : List (Node × Nat)) : List Nat :=
  nodes.foldr (fun (n, id) live =>
    if n.op.isSink || live.contains id then id :: (n.producers ++ live) else live) []

/-- The live nodes of a function. -/
def live (f : Function) : List Nat := mark f.nodes.zipIdx

/-- The new number of a node: how many of the `live` nodes come before it. -/
def newNumber (live : List Nat) (id : Nat) : Nat := (List.range id).countP live.contains

/-- The names of the dead nodes. -/
def deadNames (f : Function) : List String :=
  (f.nodes.zipIdx.filter fun (_, id) => !f.live.contains id).map fun (n, _) => n.name

/-- The function without its dead nodes. When there are any, the use-lists are made anew. -/
def eliminateDead (f : Function) : Function :=
  let live := f.live
  let nodes := (f.nodes.zipIdx.filter fun (_, id) => live.contains id).map fun (n, _) =>
    { n with inputs := n.inputs.map (.renumber (newNumber live)) }
  { f with
    nodes
    uses := if nodes.length = f.size then f.uses else .ofNodes nodes
    nodeNames := Names.release f.nodeNames f.deadNames }

/-- How many nodes elimination removes. -/
def deadCount (f : Function) : Nat := f.size - f.eliminateDead.size

end Function

end TensorCompiler
