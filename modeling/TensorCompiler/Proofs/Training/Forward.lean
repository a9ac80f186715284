import TensorCompiler.Proofs.Run.Engine
import TensorCompiler.Proofs.Training.Ordering

/-!
A training function starts with its source. Every node of a verified source is a sink or has a reader,
so all of them are live in the derivative and none gets another number (`Derived.source_eliminateDead`).
What comes after them saves nowhere, and its steps of descent come last (`Training.Trains`).
-/

namespace TensorCompiler

open Training

namespace Training

variable {src : Source} {f : Function}

/-- The nodes of a verified source are live in its derivative. -/
theorem Draft.source_live (h : Draft src f) (hverify : src.function.verify src.storage = .ok ())
    {i : Nat} (hi : i < src.function.size) : i ∈ f.live :=
  Function.live_of_verify hverify h.source h.arena hi

/-- Elimination of dead nodes leaves the nodes of a verified source as they are. -/
theorem Draft.source_eliminateDead (h : Draft src f)
    (hverify : src.function.verify src.storage = .ok ()) :
    src.function.nodes <+: f.eliminateDead.nodes := by
  have hnumber {i : Nat} (hi : i ≤ src.function.size) : Function.newNumber f.live i = i :=
    Function.newNumber_of_live fun j hj => h.source_live hverify (Nat.lt_of_lt_of_le hj hi)
  refine List.prefix_iff_getElem?.2 fun i hi => ?_
  have hn : src.function.nodes[i]? = some src.function.nodes[i] := List.getElem?_eq_getElem hi
  refine Function.getElem?_nodes_eliminateDead.2 ⟨i, _, Function.getElem?_of_nodes h.source hn,
    h.source_live hverify hi, (hnumber (Nat.le_of_lt hi)).symm, ?_⟩
  refine (Node.renumber_of_fixed fun {j r} hread => hnumber ?_).symm
  exact Nat.le_of_lt (Nat.lt_trans ((Function.arena_of_verify hverify).earlier hn hread) hi)

/-- A node after the source is a node that the pass has added. -/
theorem Draft.added_eliminateDead (h : Draft src f)
    (hverify : src.function.verify src.storage = .ok ()) {j : Nat} {n : Node}
    (hj : src.function.size ≤ j) (hn : f.eliminateDead.nodes[j]? = some n) :
    ∃ i m, f.nodes[i]? = some m ∧ Added src f i m ∧ n = m.renumber (Function.newNumber f.live) := by
  obtain ⟨i, m, hm, hi, rfl, rfl⟩ := Function.getElem?_nodes_eliminateDead.1 hn
  refine ⟨i, m, hm, h.added ?_ hm, rfl⟩
  by_contra hlt
  rw [Function.newNumber_of_live fun k hk => h.source_live hverify (by omega)] at hj
  exact hlt hj

/-- What the training function `g` of `f` is: the nodes of `f`, then nodes that save nothing and read
only storage that `f` reads, with the steps of descent at the end. -/
structure Trains (s : Storage) (f g : Function) : Prop where
  source : f.nodes <+: g.nodes
  forward : ∀ n ∈ f.nodes, ∀ p, n.op ≠ .sgd p
  noSave : ∀ ⦃j : Nat⦄ ⦃n : Node⦄ ⦃ref : StorageRef⦄, f.size ≤ j → g.nodes[j]? = some n →
    n.op ≠ .save ref
  reads : ∀ ⦃j : Nat⦄ ⦃n : Node⦄ ⦃ref : StorageRef⦄, f.size ≤ j → g.nodes[j]? = some n →
    .storage ref ∈ n.inputs → f.Reads ref
  descendsLast : g.DescendsLast

variable {s : Storage} {g derived : Function} {settings : Descent}

theorem trains_of_derivative (hverify : f.verify s = .ok ())
    (hderived : (Source.ofFunction s f).derivative settings = .ok derived)
    (h : Derived (Source.ofFunction s f) derived) (hnodes : g.nodes = derived.eliminateDead.nodes) :
    Trains s f g := by
  have hrules := hasRule_of_derivative hderived
  have hlast := (h.descendsLast hrules).eliminateDead h.draft.arena
  refine ⟨hnodes ▸ h.draft.source_eliminateDead hverify,
    fun n hn => not_sgd_of_hasRule (hrules n hn), fun j n ref hj hn hop => ?_,
    fun j n ref hj hn hread => ?_, hlast.of_nodes hnodes⟩
  all_goals obtain ⟨i, m, -, hadded, rfl⟩ := h.draft.added_eliminateDead hverify hj (hnodes ▸ hn)
  · have hkind := hadded.2
    rw [show m.op = .save ref from hop] at hkind
    exact hkind
  · exact hadded.1 ref (Function.storage_mem_renumber.1 hread)

end Training

/-- Differentiation adds a verified training function of its source. -/
theorem Module.exists_trains {m m' : Module} {id k : Nat} {settings : Descent}
    (h : m.differentiate id settings = .ok (k, m')) :
    ∃ f g, m.function id = .ok f ∧ m'.function k = .ok g ∧ m'.storage = m.storage ∧
      f.verify m.storage = .ok () ∧ g.verify m.storage = .ok () ∧ Training.Trains m.storage f g := by
  obtain ⟨f, derived, hf, hverify, -, hderived, hdead, hinsert⟩ := differentiate_ok_iff.1 h
  obtain ⟨derived', hderived', hd, -⟩ :=
    exists_derived hverify (Training.hasRule_of_derivative hderived) settings
  obtain rfl := Except.ok.inj (hderived.symm.trans hderived')
  obtain ⟨rfl, rfl⟩ := Prod.mk.inj hinsert
  exact ⟨f, _, hf, function_insertFunction m derived.eliminateDead, rfl, hverify,
    Function.verify_rename _ hdead,
    Training.trains_of_derivative hverify hderived hd rfl⟩

/-- A compilation for training lowers a training function of its source. -/
theorem Engine.exists_trains {e e₁ : Engine} {settings : Option Descent} {id : Nat} {key : String}
    {f : Function} (hf : e.module.function id = .ok f)
    (hcompile : e.compile (.train settings) id = (.ok key, e₁)) :
    ∃ k g st a, e₁.module.function k = .ok g ∧ Training.Trains e.module.storage f g ∧
      Lowering.Lowered e.module.storage g e.reuse st a ∧ e₁.module.storage = e.module.storage ∧
      e₁.get? key = some ⟨k, a, zeroState a⟩ := by
  obtain ⟨k, m, g, a, htarget, hg, hlower, rfl, hentry⟩ := compile_ok hcompile
  obtain ⟨st, -, h, -⟩ := Lowering.lowered_of_lower hlower
  cases settings with
  | none => cases htarget
  | some settings =>
    obtain ⟨f₀, g₀, hf₀, hg₀, hstorage, -, -, htrains⟩ := Module.exists_trains htarget
    obtain rfl := Except.ok.inj (hf₀.symm.trans hf)
    obtain rfl := Except.ok.inj (hg₀.symm.trans hg)
    rw [hstorage] at h
    exact ⟨k, g₀, st, a, hg, htrains, h, hstorage, hentry⟩

end TensorCompiler
