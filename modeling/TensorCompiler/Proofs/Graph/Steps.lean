import TensorCompiler.Proofs.Graph.Sound
import TensorCompiler.Graph.Build
import Mathlib.Logic.Relation

/-!
Modules step by step. `Step` has one constructor for each public operation, those that fail included;
a variable gets another tensor only of the type it has. Every step keeps the functions sound
(`Sound.step`), and so does every sequence of them (`Sound.steps`). What verification finds wrong with
a function that operations have made is a dead node (`only_dead_nodes_fail`).
-/

namespace TensorCompiler

namespace Module

/-- One operation on a module, or of an engine over it. -/
inductive Step : Module → Module → Prop
  | createVariable (m : Module) (name : String) (payload : Tensor Single)
      (isPublic trainable : Bool) : Step m (m.createVariable name payload isPublic trainable).2
  | createPlaceholder (m : Module) (name : String) (type : TensorType) (trainable : Bool) :
      Step m (m.createPlaceholder name type trainable).2
  | setPayload {m m' : Module} {id : Nat} {t : Tensor Single} (hm : m.setPayload id t = .ok m')
      (htype : m.storage.type? (.var id) = some t.type) : Step m m'
  | setElements {m m' : Module} {id : Nat} {elements : Payload Single}
      (hm : m.setElements id elements = .ok m') : Step m m'
  | setTrainable {m m' : Module} {id : Nat} {trainable : Bool}
      (hm : m.setTrainable id trainable = .ok m') : Step m m'
  | createFunction (m : Module) (name : String) : Step m (m.createFunction name).2
  | createNode (m : Module) (f : Nat) (name : String) (op : Operator) (inputs : List Value) :
      Step m (m.createNode f name op inputs).2
  | createConvolution (m : Module) (f : Nat) (name : String) (input : Value) (p : Convolution) :
      Step m (m.createConvolution f name input p).2
  | createDense (m : Module) (f : Nat) (name : String) (input : Value) (depth : Nat) :
      Step m (m.createDense f name input depth).2
  | createOutput (m : Module) (f : Nat) (name : String) (value : Value) :
      Step m (m.createOutput f name value).2
  | cloneFunction {m m' : Module} {id k : Nat} {name : String}
      (hm : m.cloneFunction id name = .ok (k, m')) : Step m m'
  | eraseFunction {m m' : Module} {id : Nat} {f : Function}
      (hm : m.eraseFunction id = .ok (f, m')) : Step m m'
  | eliminateDead {m m' : Module} {id k : Nat} (hm : m.eliminateDead id = .ok (k, m')) : Step m m'
  | differentiate {m m' : Module} {id k : Nat} {settings : Descent}
      (hm : m.differentiate id settings = .ok (k, m')) : Step m m'
  | compile (e : Engine) (mode : Mode) (id : Nat) : Step e.module (e.compile mode id).2.module
  | run (e : Engine) (key : String) (c : Context) : Step e.module (e.run key c).2.1.module

/-- Every function of the module is sound. -/
def Sound (m : Module) : Prop :=
  ∀ ⦃k : Nat⦄ ⦃f : Function⦄, m.functions.get? k = some f → f.Sound m.storage

namespace Sound

variable {m m' : Module}

theorem withSeed (seed : UInt64) : (withSeed seed).Sound := nofun

/-- The same functions over storage that has grown. -/
theorem grow (h : m.Sound) (hfunctions : m'.functions = m.functions)
    (hs : m.storage.KeepsTypes m'.storage) : m'.Sound :=
  fun _ _ hk => (h (hfunctions ▸ hk)).of_storage hs

/-- One function more, or another in the place of one. -/
theorem insert (h : m.Sound) {id : Nat} {f : Function} (hf : f.Sound m.storage)
    (hfunctions : m'.functions = m.functions.insert id f) (hstorage : m'.storage = m.storage) :
    m'.Sound := by
  intro k g hk
  rw [hfunctions, IdMap.get?_insert] at hk
  rw [hstorage]
  split at hk
  · exact Option.some.inj hk ▸ hf
  · exact h hk

theorem erase (h : m.Sound) (id : Nat) : (m.withoutFunction id).Sound := by
  intro k f hk
  simp only [withoutFunction, IdMap.get?_erase] at hk
  split at hk
  · cases hk
  · exact h hk

theorem insertFunction (h : m.Sound) {f : Function} (hf : f.Sound m.storage) :
    (m.insertFunction f).2.Sound :=
  h.insert (hf.rename _) rfl rfl

theorem createPlaceholder (h : m.Sound) (name : String) (type : TensorType) (trainable : Bool) :
    (m.createPlaceholder name type trainable).2.Sound :=
  h.grow rfl (Storage.keepsTypes_addPlaceholder ..)

theorem createVariable (h : m.Sound) (name : String) (payload : Tensor Single)
    (isPublic trainable : Bool) : (m.createVariable name payload isPublic trainable).2.Sound :=
  h.grow rfl (Storage.keepsTypes_addVariable ..)

theorem createWeights (h : m.Sound) (weights bias : String) (shape : Shape) (fanIn depth : Nat) :
    (m.createWeights weights bias shape fanIn depth).2.Sound := by
  have hdrawn : Sound { m with generator := (Random.xavier shape fanIn m.generator).2 } := h
  exact (hdrawn.createVariable ..).createVariable ..

theorem setPayload (h : m.Sound) {id : Nat} {t : Tensor Single} (hm : m.setPayload id t = .ok m')
    (htype : m.storage.type? (.var id) = some t.type) : m'.Sound := by
  simp only [Module.setPayload, bind_ok_iff, pure_ok_iff] at hm
  obtain ⟨_, -, rfl⟩ := hm
  refine h.grow rfl (Storage.keepsTypes_modify fun v hv => ?_)
  simp only [Storage.type?, hv, Option.map_some, Option.some.injEq] at htype
  exact htype.symm

theorem setElements (h : m.Sound) {id : Nat} {elements : Payload Single}
    (hm : m.setElements id elements = .ok m') : m'.Sound := by
  simp only [Module.setElements, bind_ok_iff, mapError_ok_iff] at hm
  obtain ⟨v, hv, t, ht, hm⟩ := hm
  refine h.setPayload hm ?_
  have htype : t.type = v.payload.type := (Tensor.ofPayload_eq_ok.1 ht).1
  unfold variableAt at hv
  split at hv
  · next hget =>
    obtain rfl := Except.ok.inj hv
    simp [Storage.type?, hget, htype]
  · cases hv

theorem setTrainable (h : m.Sound) {id : Nat} {trainable : Bool}
    (hm : m.setTrainable id trainable = .ok m') : m'.Sound := by
  simp only [Module.setTrainable, bind_ok_iff, pure_ok_iff] at hm
  obtain ⟨_, -, rfl⟩ := hm
  exact h.grow rfl (Storage.keepsTypes_modify fun _ _ => rfl)

theorem createNode (h : m.Sound) (id : Nat) (name : String) (op : Operator)
    (inputs : List Value) : (m.createNode id name op inputs).2.Sound := by
  unfold Module.createNode
  split
  · exact h
  · next f hf =>
    split
    · exact h
    · next hf' => exact h.insert ((h (function_ok_iff.1 hf)).append hf') rfl rfl

theorem createConvolution (h : m.Sound) (id : Nat) (name : String) (input : Value)
    (p : Convolution) : (m.createConvolution id name input p).2.Sound := by
  unfold Module.createConvolution
  split
  · exact h
  · exact (h.createWeights ..).createNode ..

theorem createDense (h : m.Sound) (id : Nat) (name : String) (input : Value) (depth : Nat) :
    (m.createDense id name input depth).2.Sound := by
  unfold Module.createDense
  split
  · exact h
  · exact (h.createWeights ..).createNode ..

theorem createOutput (h : m.Sound) (id : Nat) (name : String) (value : Value) :
    (m.createOutput id name value).2.Sound := by
  unfold Module.createOutput
  split
  · exact h
  · exact (h.createPlaceholder ..).createNode ..

theorem cloneFunction (h : m.Sound) {id k : Nat} {name : String}
    (hm : m.cloneFunction id name = .ok (k, m')) : m'.Sound := by
  simp only [Module.cloneFunction, bind_ok_iff, pure_ok_iff] at hm
  obtain ⟨f, hf, hm⟩ := hm
  have hinserted := h.insertFunction ((h (function_ok_iff.1 hf)).rename name)
  rwa [hm] at hinserted

theorem eraseFunction (h : m.Sound) {id : Nat} {f : Function}
    (hm : m.eraseFunction id = .ok (f, m')) : m'.Sound := by
  simp only [Module.eraseFunction, bind_ok_iff, pure_ok_iff, Prod.mk.injEq] at hm
  obtain ⟨f, -, -, rfl⟩ := hm
  exact h.erase id

theorem eliminateDead (h : m.Sound) {id k : Nat} (hm : m.eliminateDead id = .ok (k, m')) :
    m'.Sound := by
  simp only [Module.eliminateDead, bind_ok_iff, pure_ok_iff, Prod.mk.injEq] at hm
  obtain ⟨f, hf, -, rfl⟩ := hm
  exact h.insert (h (function_ok_iff.1 hf)).eliminateDead rfl rfl

theorem differentiate (h : m.Sound) {id k : Nat} {settings : Descent}
    (hm : m.differentiate id settings = .ok (k, m')) : m'.Sound := by
  obtain ⟨f, derived, hf, hverify, -, hderived, -, hm⟩ := differentiate_ok_iff.1 hm
  have hderived := (h (function_ok_iff.1 hf)).derivative hverify hderived
  have hinserted := h.insertFunction hderived.eliminateDead
  rwa [hm] at hinserted

theorem compile {e : Engine} (h : e.module.Sound) (mode : Mode) (id : Nat) :
    (e.compile mode id).2.module.Sound := by
  have htarget {k : Nat} {m : Module} (hm : Engine.target e.module mode id = .ok (k, m)) :
      m.Sound := by
    rcases Engine.target_module hm with rfl | ⟨settings, hm⟩
    · exact h
    · exact h.differentiate hm
  rcases e.module_compile mode id with heq | ⟨k, m, hm, heq | heq⟩ <;> rw [heq]
  · exact h
  · exact htarget hm
  · exact (htarget hm).erase k

/-- A run stores back tensors of the types that the variables have. -/
theorem run {e : Engine} (h : e.module.Sound) (key : String) (c : Context) :
    (e.run key c).2.1.module.Sound := by
  unfold Engine.run
  split
  · exact h
  · next compiled _ =>
    dsimp only
    split
    · exact h
    · exact h.grow rfl (Storage.keepsTypes_of_eq
        (Engine.type?_restore (Engine.vars_run e compiled c)))

/-- Every operation keeps the functions sound. -/
theorem step (h : m.Sound) (hstep : Step m m') : m'.Sound := by
  cases hstep with
  | createVariable _ name payload isPublic trainable =>
    exact h.createVariable name payload isPublic trainable
  | createPlaceholder _ name type trainable => exact h.createPlaceholder name type trainable
  | setPayload hm htype => exact h.setPayload hm htype
  | setElements hm => exact h.setElements hm
  | setTrainable hm => exact h.setTrainable hm
  | createFunction _ name => exact h.insertFunction (Function.sound_nil _ name)
  | createNode _ f name op inputs => exact h.createNode f name op inputs
  | createConvolution _ f name input p => exact h.createConvolution f name input p
  | createDense _ f name input depth => exact h.createDense f name input depth
  | createOutput _ f name value => exact h.createOutput f name value
  | cloneFunction hm => exact h.cloneFunction hm
  | eraseFunction hm => exact h.eraseFunction hm
  | eliminateDead hm => exact h.eliminateDead hm
  | differentiate hm => exact h.differentiate hm
  | compile e mode id => exact h.compile mode id
  | run e key c => exact h.run key c

theorem steps (h : m.Sound) (hsteps : Relation.ReflTransGen Step m m') : m'.Sound := by
  induction hsteps with
  | refl => exact h
  | tail _ hstep ih => exact ih.step hstep

end Sound

variable {m : Module} {seed : UInt64}

/-- In a module that operations have made, every node reads existing results of earlier nodes, its
recorded types are those that follow from its operands, and its use-list holds each node that reads it
as often as it does, in ascending order. Verification accepts a function exactly when it has no dead
nodes, and always when they have just been removed. -/
theorem only_dead_nodes_fail (h : Relation.ReflTransGen Step (withSeed seed) m) {id : Nat}
    {f : Function} (hf : m.function id = .ok f) :
    (∀ ⦃i : Nat⦄ ⦃n : Node⦄, f.nodes[i]? = some n →
      (∀ j r, Value.node j r ∈ n.inputs →
        j < i ∧ ∃ p type, f.nodes[j]? = some p ∧ p.results[r]? = some type) ∧
      (∃ types, n.inputs.mapM (f.valueType m.storage) = .ok types ∧
        Typing.resultTypes m.storage n.op types = .ok n.results) ∧
      (f.users i).Pairwise (· ≤ ·) ∧
      ∀ j, (f.users i).count j = ((f.nodes[j]?).map (·.producers.count i)).getD 0) ∧
    (m.verifyFunction id = .ok () ↔ ∃ m', m.eliminateDead id = .ok (0, m')) ∧
    ∃ k m', m.eliminateDead id = .ok (k, m') ∧ m'.verifyFunction id = .ok () := by
  have hsound : f.Sound m.storage := ((Sound.withSeed seed).steps h) (function_ok_iff.1 hf)
  have heliminate : m.eliminateDead id = .ok (f.deadCount, m.setFunction id f.eliminateDead) := by
    simp only [Module.eliminateDead, hf]
    rfl
  refine ⟨fun i n hn => ?_, ?_, ?_⟩
  · obtain ⟨types, hwt⟩ := hsound.arena hn
    have husers := hsound.wired i (List.getElem?_eq_some_iff.1 hn).1
    refine ⟨fun j r hv => ?_, ⟨types, ?_, hwt.results⟩, ?_, fun j => ?_⟩
    · obtain ⟨type, -, hj, p, hp, hr⟩ := exists_right_of_forall₂ hwt.operands hv
      exact ⟨hj, p, type, hp, hr⟩
    · exact mapM_ok_iff.2 (hwt.operands.imp fun _ _ ht => (Function.operandType_iff.1 ht).1)
    · rw [husers]
      exact f.pairwise_readers i
    · rw [husers]
      exact f.count_readers i j
  · have hverify : m.verifyFunction id = .ok () ↔ f.verify m.storage = .ok () := by
      simp only [verifyFunction, hf]
      rfl
    rw [hverify, hsound.verify_iff, heliminate]
    constructor
    · intro hdead
      exact ⟨_, by rw [hdead]⟩
    · rintro ⟨m', hm'⟩
      exact (Prod.mk.inj (Except.ok.inj hm')).1
  · refine ⟨_, _, heliminate, bind_ok_iff.2 ⟨f.eliminateDead, ?_, hsound.verify_eliminateDead⟩⟩
    exact function_ok_iff.2 ((IdMap.get?_insert ..).trans (if_pos rfl))

end Module

namespace Sample

/-- The network with a node that nothing reads and that reads the product twice. -/
def idle : Module :=
  (network.createNode 0 "square" (.binary .mul) [.node 0 0, .node 0 0]).2

theorem steps_idle : Relation.ReflTransGen Module.Step (.withSeed 0) idle :=
  Relation.ReflTransGen.refl
    |>.tail (.createVariable _ "w" (.zeros (.float [1])) false true)
    |>.tail (.createPlaceholder _ "x" (.float [1]) false)
    |>.tail (.createPlaceholder _ "y" (.float [1]) false)
    |>.tail (.createFunction _ "train")
    |>.tail (.createNode _ 0 "product" (.binary .mul) [.storage (.var 0), .storage (.placeholder 0)])
    |>.tail (.createNode _ 0 "error" .regression [.node 0 0, .storage (.placeholder 0)])
    |>.tail (.createNode _ 0 "out" (.save (.placeholder 1)) [.node 1 0])
    |>.tail (.createNode _ 0 "square" (.binary .mul) [.node 0 0, .node 0 0])

/-- The idle node keeps the function from being verified, until it is removed. -/
theorem only_dead_nodes_fail_idle : Relation.ReflTransGen Module.Step (.withSeed 0) idle ∧
    ∃ f, idle.function 0 = .ok f ∧ f.users 0 = [1, 3, 3] ∧ idle.verifyFunction 0 ≠ .ok () ∧
      ∃ m', idle.eliminateDead 0 = .ok (1, m') ∧ m'.verifyFunction 0 = .ok () := by
  obtain ⟨f, hf⟩ : ∃ f, idle.function 0 = .ok f := ⟨_, rfl⟩
  obtain ⟨-, hverify, k, m', hm', hafter⟩ :=
    Module.only_dead_nodes_fail steps_idle hf
  obtain ⟨m₁, hone⟩ : ∃ m₁, idle.eliminateDead 0 = .ok (1, m₁) := ⟨_, rfl⟩
  obtain ⟨rfl, rfl⟩ := Prod.mk.inj (Except.ok.inj (hm'.symm.trans hone))
  refine ⟨steps_idle, f, hf, ?_, fun haccepted => ?_, m', hone, hafter⟩
  · obtain rfl := Except.ok.inj hf
    rfl
  · obtain ⟨m₂, hnone⟩ := hverify.1 haccepted
    cases hone.symm.trans hnone

end Sample

end TensorCompiler
