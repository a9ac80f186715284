import TensorCompiler.Graph.Build
import TensorCompiler.Proofs.Graph.Arena
import TensorCompiler.Run.Engine
import Mathlib.Logic.Relation

/-!
What operations do to the functions of a module. Each of them is a sequence of changes of four kinds
(`Module.Change`): the functions stay as they are, one is inserted, one takes the place of another under
the same name, or one is erased. What every change keeps, every operation keeps. The first such fact is
that the functions have numbers below the next one (`Numbered.changed`), so that an inserted one replaces
none.
-/

namespace TensorCompiler

/-- The module that a compilation lowers from: the one it is given, or that with a training function. -/
theorem Engine.target_module {m m' : Module} {mode : Mode} {id k : Nat}
    (h : target m mode id = .ok (k, m')) :
    m' = m ∨ ∃ settings, m.differentiate id settings = .ok (k, m') := by
  cases mode with
  | infer =>
    obtain ⟨-, rfl⟩ := Prod.mk.inj (Except.ok.inj h)
    exact .inl rfl
  | train settings => cases settings with
    | none => cases h
    | some settings => exact .inr ⟨settings, h⟩

/-- The module after a compilation: as it was, as its target left it, or less the target. -/
theorem Engine.module_compile (e : Engine) (mode : Mode) (id : Nat) :
    (e.compile mode id).2.module = e.module ∨
      ∃ k m, target e.module mode id = .ok (k, m) ∧ ((e.compile mode id).2.module = m ∨
        (e.compile mode id).2.module = m.withoutFunction k) := by
  unfold compile
  split
  · exact .inl rfl
  · next k m htarget =>
    refine .inr ⟨k, m, htarget, ?_⟩
    split
    · exact .inl rfl
    · dsimp only
      split
      · exact .inl rfl
      · exact .inr rfl

namespace Module

variable {m m' : Module} {k id : Nat} {f g : Function}

theorem function_ok_iff : m.function id = .ok f ↔ m.functions.get? id = some f := by
  unfold Module.function
  cases m.functions.get? id <;> simp

/-- A node is refused without a change, or appended to the function. -/
theorem createNode_cases (m : Module) (k : Nat) (name : String) (op : Operator)
    (inputs : List Value) : (∃ e, m.createNode k name op inputs = (.error e, m)) ∨
      ∃ f f', m.function k = .ok f ∧ f.append m.storage name op inputs = .ok f' ∧
        m.createNode k name op inputs = (.ok f.size, m.setFunction k f') := by
  unfold createNode
  cases hf : m.function k with
  | error e => exact .inl ⟨e, rfl⟩
  | ok f =>
    cases hf' : f.append m.storage name op inputs with
    | error e => exact .inl ⟨e, by simp only [hf']⟩
    | ok f' => exact .inr ⟨f, f', rfl, hf', by simp only [hf']⟩

/-- What can happen to the functions of a module. -/
inductive Change (m : Module) : Module → Prop
  | same {m' : Module} (hfunctions : m'.functions = m.functions)
      (hnames : m'.functionNames = m.functionNames) (hnext : m'.nextFunction = m.nextFunction) :
      Change m m'
  | insert (f : Function) : Change m (m.insertFunction f).2
  | replace {id : Nat} {f g : Function} (hf : m.function id = .ok f) (hname : g.name = f.name) :
      Change m (m.setFunction id g)
  | erase (id : Nat) : Change m (m.withoutFunction id)

/-- The functions have changed any number of times. -/
abbrev Changed : Module → Module → Prop := Relation.ReflTransGen Change

namespace Changed

theorem same (hfunctions : m'.functions = m.functions)
    (hnames : m'.functionNames = m.functionNames) (hnext : m'.nextFunction = m.nextFunction) :
    m.Changed m' := .single (.same hfunctions hnames hnext)

theorem inserted (h : m.insertFunction f = (k, m')) : m.Changed m' := by
  obtain ⟨-, rfl⟩ := Prod.mk.inj h
  exact .single (.insert f)

/-! ## Storage -/

theorem setPayload {t : Tensor Single} (hm : m.setPayload id t = .ok m') : m.Changed m' := by
  simp only [Module.setPayload, bind_ok_iff, pure_ok_iff] at hm
  obtain ⟨_, -, rfl⟩ := hm
  exact same rfl rfl rfl

theorem setElements {elements : Payload Single} (hm : m.setElements id elements = .ok m') :
    m.Changed m' := by
  simp only [Module.setElements, bind_ok_iff] at hm
  obtain ⟨_, -, t, -, hm⟩ := hm
  exact setPayload hm

theorem setTrainable {trainable : Bool} (hm : m.setTrainable id trainable = .ok m') :
    m.Changed m' := by
  simp only [Module.setTrainable, bind_ok_iff, pure_ok_iff] at hm
  obtain ⟨_, -, rfl⟩ := hm
  exact same rfl rfl rfl

theorem createVariable (m : Module) (name : String) (payload : Tensor Single)
    (isPublic trainable : Bool) : m.Changed (m.createVariable name payload isPublic trainable).2 :=
  same rfl rfl rfl

theorem createPlaceholder (m : Module) (name : String) (type : TensorType) (trainable : Bool) :
    m.Changed (m.createPlaceholder name type trainable).2 :=
  same rfl rfl rfl

theorem createWeights (m : Module) (weights bias : String) (shape : Shape) (fanIn depth : Nat) :
    m.Changed (m.createWeights weights bias shape fanIn depth).2 :=
  same rfl rfl rfl

/-! ## Functions -/

theorem createFunction (m : Module) (name : String) : m.Changed (m.createFunction name).2 :=
  .single (.insert _)

theorem cloneFunction {name : String} (hm : m.cloneFunction id name = .ok (k, m')) :
    m.Changed m' := by
  simp only [Module.cloneFunction, bind_ok_iff, pure_ok_iff] at hm
  obtain ⟨f, -, hm⟩ := hm
  exact inserted hm

theorem eraseFunction (hm : m.eraseFunction id = .ok (f, m')) : m.Changed m' := by
  simp only [Module.eraseFunction, bind_ok_iff, pure_ok_iff, Prod.mk.injEq] at hm
  obtain ⟨f, -, -, rfl⟩ := hm
  exact .single (.erase id)

theorem eliminateDead (hm : m.eliminateDead id = .ok (k, m')) : m.Changed m' := by
  simp only [Module.eliminateDead, bind_ok_iff, pure_ok_iff, Prod.mk.injEq] at hm
  obtain ⟨f, hf, -, rfl⟩ := hm
  exact .single (.replace hf rfl)

theorem differentiate {settings : Descent} (hm : m.differentiate id settings = .ok (k, m')) :
    m.Changed m' := by
  simp only [Module.differentiate, bind_ok_iff, pure_ok_iff] at hm
  obtain ⟨_, -, f, -, _, -, derived, -, _, -, hm⟩ := hm
  exact inserted hm

/-! ## Factories -/

/-- A factory appends to the function that it is called on, which keeps its name. -/
theorem createNode (m : Module) (k : Nat) (name : String) (op : Operator) (inputs : List Value) :
    m.Changed (m.createNode k name op inputs).2 := by
  rcases m.createNode_cases k name op inputs with ⟨e, h⟩ | ⟨f, f', hf, happend, h⟩ <;> rw [h]
  obtain ⟨types, n, -, -, -, -, -, -, rfl⟩ := Function.append_ok happend
  exact .single (.replace hf rfl)

theorem createConvolution (m : Module) (k : Nat) (name : String) (input : Value)
    (p : Convolution) : m.Changed (m.createConvolution k name input p).2 := by
  unfold Module.createConvolution
  split
  · exact .refl
  · exact (createWeights m ..).trans (createNode ..)

theorem createDense (m : Module) (k : Nat) (name : String) (input : Value) (depth : Nat) :
    m.Changed (m.createDense k name input depth).2 := by
  unfold Module.createDense
  split
  · exact .refl
  · exact (createWeights m ..).trans (createNode ..)

theorem createOutput (m : Module) (k : Nat) (name : String) (value : Value) :
    m.Changed (m.createOutput k name value).2 := by
  unfold Module.createOutput
  split
  · exact .refl
  · exact (createPlaceholder m ..).trans (createNode ..)

/-! ## Engines -/

theorem target {mode : Mode} (hm : Engine.target m mode id = .ok (k, m')) : m.Changed m' := by
  rcases Engine.target_module hm with rfl | ⟨settings, hm⟩
  · exact .refl
  · exact differentiate hm

theorem compile (e : Engine) (mode : Mode) (id : Nat) :
    e.module.Changed (e.compile mode id).2.module := by
  rcases e.module_compile mode id with h | ⟨k, m, htarget, h | h⟩ <;> rw [h]
  · exact target htarget
  · exact (target htarget).tail (.erase k)

theorem run (e : Engine) (key : String) (c : Context) :
    e.module.Changed (e.run key c).2.1.module := by
  unfold Engine.run
  split
  · exact .refl
  · dsimp only
    split
    · exact .refl
    · exact same rfl rfl rfl

end Changed

/-! ## Numbers -/

/-- The number of every function is below the next one. -/
def Numbered (m : Module) : Prop :=
  ∀ ⦃k : Nat⦄ ⦃f : Function⦄, m.functions.get? k = some f → k < m.nextFunction

theorem Numbered.change (h : m.Numbered) (hchange : Change m m') : m'.Numbered := by
  intro k g hk
  cases hchange with
  | same hfunctions _ hnext =>
    rw [hnext]
    exact h (hfunctions ▸ hk)
  | insert f =>
    simp only [insertFunction, IdMap.get?_insert] at hk ⊢
    split at hk
    · omega
    · exact Nat.lt_succ_of_lt (h hk)
  | replace hf _ =>
    simp only [setFunction, IdMap.get?_insert] at hk ⊢
    split at hk
    · next heq => exact heq ▸ h (function_ok_iff.1 hf)
    · exact h hk
  | erase id =>
    simp only [withoutFunction, IdMap.get?_erase] at hk
    split at hk
    · cases hk
    · exact h hk

theorem Numbered.changed (h : m.Numbered) (hchanged : m.Changed m') : m'.Numbered := by
  induction hchanged with
  | refl => exact h
  | tail _ hchange ih => exact ih.change hchange

end Module

end TensorCompiler
