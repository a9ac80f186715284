import TensorCompiler.Proofs.Graph.Reachable
import TensorCompiler.Proofs.Lowering.Total
import TensorCompiler.Proofs.Training.Total

/-!
Differentiation succeeds exactly on verified functions whose operators have rules, with valid
settings, and then adds a verified function to the module and changes nothing else.
-/

namespace TensorCompiler

open Training

/-- Verification does not depend on the name of the function. -/
theorem Function.verify_rename {s : Storage} {f : Function} (name : String)
    (h : f.verify s = .ok ()) : Function.verify s { f with name } = .ok () := by
  rw [verify_ok_iff] at h ⊢
  exact h

namespace Training

theorem wantsFloats_ofFunction {s : Storage} {f : Function} (h : f.Arena s) :
    WantsFloats (Source.ofFunction s f) := by
  intro v type htype hwants
  obtain ⟨kind, shape⟩ := type
  obtain rfl : kind = .float := by
    simpa [TensorType.isFloat] using isFloat_of_wants h htype hwants
  exact ⟨shape, rfl⟩

end Training

namespace Module

variable {m m' : Module} {id k : Nat} {settings : Descent}

/-- What a differentiation that succeeds has checked and made. -/
theorem differentiate_ok_iff : m.differentiate id settings = .ok (k, m') ↔
    ∃ f derived, m.function id = .ok f ∧ f.verify m.storage = .ok () ∧ settings.check = .ok () ∧
      (Source.ofFunction m.storage f).derivative settings = .ok derived ∧
      derived.eliminateDead.verify m.storage = .ok () ∧
      m.insertFunction derived.eliminateDead = (k, m') := by
  simp only [Module.differentiate, Module.verifyFunction, bind_ok_iff, mapError_ok_iff,
    pure_ok_iff]
  constructor
  · rintro ⟨_, ⟨f, hf, hverify⟩, f', hf', _, hsettings, derived, hderived, _, hdead, hm⟩
    obtain rfl := Except.ok.inj (hf.symm.trans hf')
    exact ⟨f, derived, hf, hverify, hsettings, hderived, hdead, hm⟩
  · rintro ⟨f, derived, hf, hverify, hsettings, hderived, hdead, hm⟩
    exact ⟨(), ⟨f, hf, hverify⟩, f, hf, (), hsettings, derived, hderived, (), hdead, hm⟩

theorem function_insertFunction (m : Module) (f : Function) :
    (m.insertFunction f).2.function m.nextFunction =
      .ok { f with name := Names.fresh m.functionNames f.name } := by
  simp only [Module.function, insertFunction, IdMap.get?_insert, if_pos]

/-- A verified function whose operators have rules has a verified derivative. -/
theorem exists_derived {f : Function} {s : Storage} (hverify : f.verify s = .ok ())
    (hrules : ∀ n ∈ f.nodes, n.op.hasRule = true) (settings : Descent) :
    ∃ derived, (Source.ofFunction s f).derivative settings = .ok derived ∧
      Derived (Source.ofFunction s f) derived ∧ derived.eliminateDead.verify s = .ok () := by
  have harena := Function.arena_of_verify hverify
  obtain ⟨derived, hderived, h⟩ :=
    derivative_total (wantsFloats_ofFunction harena) harena (Function.linked_of_verify hverify) hrules
      settings
  exact ⟨derived, hderived, h, h.draft.arena.verify_eliminateDead h.draft.linked⟩

/-- Differentiation succeeds on a verified function whose operators have rules, with valid settings,
and on no other. When it succeeds, the new function is verified against the same storage under a
number that was free, and the other functions and the generator are as they were; when it fails, an
engine over the module is as it was. -/
theorem differentiate_total (h : m.Reachable) (id : Nat) (settings : Descent) :
    ((∃ k m', m.differentiate id settings = .ok (k, m')) ↔
      m.verifyFunction id = .ok () ∧ settings.check = .ok () ∧
        ∀ f, m.function id = .ok f → ∀ n ∈ f.nodes, n.op.hasRule = true) ∧
    (∀ k m', m.differentiate id settings = .ok (k, m') →
      m'.verifyFunction k = .ok () ∧ m'.storage = m.storage ∧ m'.generator = m.generator ∧
        m.functions.get? k = none ∧ ∀ i ≠ k, m'.functions.get? i = m.functions.get? i) ∧
    ∀ (e : Engine) (error : Error), e.module = m → m.differentiate id settings = .error error →
      e.compile (.train (some settings)) id = (.error error, e) := by
  refine ⟨⟨?_, ?_⟩, ?_, ?_⟩
  · rintro ⟨k, m', hm⟩
    obtain ⟨f, derived, hf, hverify, hsettings, hderived, -, -⟩ := differentiate_ok_iff.1 hm
    refine ⟨bind_ok_iff.2 ⟨f, hf, hverify⟩, hsettings, fun f' hf' => ?_⟩
    obtain rfl := Except.ok.inj (hf.symm.trans hf')
    exact hasRule_of_derivative hderived
  · rintro ⟨hverify, hsettings, hrules⟩
    obtain ⟨f, hf, hverify⟩ := bind_ok_iff.1 hverify
    obtain ⟨derived, hderived, -, hdead⟩ := exists_derived hverify (hrules f hf) settings
    exact ⟨_, _, differentiate_ok_iff.2 ⟨f, derived, hf, hverify, hsettings, hderived, hdead, rfl⟩⟩
  · intro k m' hm
    obtain ⟨f, derived, -, -, -, -, hdead, hinsert⟩ := differentiate_ok_iff.1 hm
    obtain ⟨rfl, rfl⟩ := Prod.mk.inj hinsert
    refine ⟨?_, rfl, rfl, ?_, fun i hi => ?_⟩
    · exact bind_ok_iff.2 ⟨_, function_insertFunction m derived.eliminateDead,
        Function.verify_rename _ hdead⟩
    · exact Option.eq_none_iff_forall_ne_some.2 fun g hg => Nat.lt_irrefl _ (h.numbered hg)
    · exact (IdMap.get?_insert ..).trans (if_neg (Ne.symm hi))
  · rintro e error rfl herror
    simp only [Engine.compile, Engine.target, herror]

end Module

namespace Sample

/-- A loss of the product of a variable and a placeholder, which is saved. -/
def product : Function where
  name := "train"
  nodes := [
    ⟨"product", .binary .mul, [.storage (.var 0), .storage (.placeholder 0)], [.float [1]]⟩,
    ⟨"error", .regression, [.node 0 0, .storage (.placeholder 0)], [.float [1]]⟩,
    ⟨"out", .save (.placeholder 1), [.node 1 0], []⟩]

/-- The module of the product, made by operations. -/
def network : Module :=
  let m := Module.withSeed 0
  let m := (m.createVariable "w" (.zeros (.float [1])) false true).2
  let m := (m.createPlaceholder "x" (.float [1]) false).2
  let m := (m.createPlaceholder "y" (.float [1]) false).2
  let m := (m.createFunction "train").2
  let m := (m.createNode 0 "product" (.binary .mul)
    [.storage (.var 0), .storage (.placeholder 0)]).2
  let m := (m.createNode 0 "error" .regression [.node 0 0, .storage (.placeholder 0)]).2
  (m.createNode 0 "out" (.save (.placeholder 1)) [.node 1 0]).2

theorem function_network : network.function 0 = .ok product :=
  rfl

theorem verify_product : product.verify network.storage = .ok () :=
  rfl

theorem verify_network : network.verifyFunction 0 = .ok () :=
  rfl

end Sample

namespace Module

theorem reachable_network : Sample.network.Reachable :=
  Reachable.withSeed 0
    |>.createVariable "w" (.zeros (.float [1])) false true
    |>.createPlaceholder "x" (.float [1]) false
    |>.createPlaceholder "y" (.float [1]) false
    |>.createFunction "train"
    |>.createNode 0 "product" (.binary .mul) [.storage (.var 0), .storage (.placeholder 0)]
    |>.createNode 0 "error" .regression [.node 0 0, .storage (.placeholder 0)]
    |>.createNode 0 "out" (.save (.placeholder 1)) [.node 1 0]

/-- A loss of a product has a training function. -/
theorem differentiate_total_sample : Sample.network.Reachable ∧
    ∃ k m', Sample.network.differentiate 0 Sample.descent = .ok (k, m') := by
  refine ⟨reachable_network, (differentiate_total reachable_network 0 Sample.descent).1.2
    ⟨Sample.verify_network, rfl, fun f hf => ?_⟩⟩
  obtain rfl := Except.ok.inj (Sample.function_network.symm.trans hf)
  decide

end Module

end TensorCompiler
