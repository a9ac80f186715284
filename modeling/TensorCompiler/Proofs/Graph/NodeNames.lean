import TensorCompiler.Proofs.Graph.Arena
import Mathlib.Logic.Relation

/-!
The names of nodes. A node that is appended is given a free name, and the nodes that elimination removes
give theirs back, so the names recorded stay those of the nodes (`Function.Named`) however a function is
edited.
-/

namespace TensorCompiler.Function

variable {s : Storage} {f f' : Function} {name : String}

/-! ## Edits -/

/-- `f'` is `f` after a node has been appended that asked for the name `name`. -/
structure Appended (s : Storage) (name : String) (f f' : Function) : Prop where
  result : ∃ op inputs, f.append s name op inputs = .ok f'
  node : ∃ n, f' = f.push n ∧ Names.Given f.nodeNames name n.name

theorem appended_of_append {op : Operator} {inputs : List Value}
    (h : f.append s name op inputs = .ok f') : Appended s name f f' := by
  obtain ⟨types, n, -, -, -, -, -, hgiven, hf'⟩ := append_ok h
  exact ⟨⟨op, inputs, h⟩, n, hf', hgiven⟩

theorem Appended.nodes (h : Appended s name f f') : f.nodes <+: f'.nodes := by
  obtain ⟨n, rfl, -⟩ := h.node
  exact List.prefix_append ..

/-- A function gets one node more, or loses its dead nodes. -/
inductive Edit (f : Function) : Function → Prop
  | append {s : Storage} {name : String} {f' : Function} (h : Appended s name f f') : Edit f f'
  | eliminateDead : Edit f f.eliminateDead

/-- `f` has become `f'` by edits. -/
abbrev Edited (f f' : Function) : Prop := Relation.ReflTransGen Edit f f'

theorem Edited.same_name (h : f.Edited f') : f'.name = f.name := by
  induction h with
  | refl => rfl
  | tail _ hedit ih =>
    rw [← ih]
    cases hedit with
    | append h =>
      obtain ⟨n, rfl, -⟩ := h.node
      rfl
    | eliminateDead => rfl

/-! ## Names -/

/-- Nodes have names of their own, which are the names taken. -/
def Named (f : Function) : Prop := Names.Exact f.nodeNames (f.nodes.map (·.name))

theorem named_nil (name : String) : Named { name, nodes := [] } := .nil

theorem Named.rename (h : f.Named) (name : String) : Named { f with name } := h

theorem Named.push (h : f.Named) {n : Node} (hfree : n.name ∉ f.nodeNames) : (f.push n).Named := by
  have hpush := Names.Exact.push h hfree
  rwa [← List.map_singleton, ← List.map_append] at hpush

theorem Named.eliminateDead (h : f.Named) : f.eliminateDead.Named := by
  have hleft : (f.eliminateDead.nodes.map (·.name)).Sublist (f.nodes.map (·.name)) := by
    rw [nodes_eliminateDead, List.map_map]
    exact (kept_sublist ..).map _
  exact Names.Exact.release h hleft fun _ => mem_names_eliminateDead h.distinct

theorem Named.edit (h : f.Named) (hedit : f.Edit f') : f'.Named := by
  cases hedit with
  | append happended =>
    obtain ⟨n, rfl, hgiven⟩ := happended.node
    exact h.push hgiven.notMem
  | eliminateDead => exact h.eliminateDead

theorem Named.edited (h : f.Named) (hedited : f.Edited f') : f'.Named := by
  induction hedited with
  | refl => exact h
  | tail _ hedit ih => exact ih.edit hedit

end TensorCompiler.Function
