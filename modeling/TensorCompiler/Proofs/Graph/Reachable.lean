import TensorCompiler.Proofs.Graph.Changes

/-!
The modules that the public operations reach. In all of them the functions have numbers below the
next one (`Reachable.numbered`), so a function that is inserted replaces none.
-/

namespace TensorCompiler.Module

/-- Modules made by any sequence of operations, those that fail included, and by engines. -/
inductive Reachable : Module → Prop
  | withSeed (seed : UInt64) : Reachable (withSeed seed)
  | createFunction {m : Module} (h : Reachable m) (name : String) :
      Reachable (m.createFunction name).2
  | cloneFunction {m m' : Module} {id k : Nat} {name : String} (h : Reachable m)
      (hm : m.cloneFunction id name = .ok (k, m')) : Reachable m'
  | eraseFunction {m m' : Module} {id : Nat} {f : Function} (h : Reachable m)
      (hm : m.eraseFunction id = .ok (f, m')) : Reachable m'
  | eliminateDead {m m' : Module} {id k : Nat} (h : Reachable m)
      (hm : m.eliminateDead id = .ok (k, m')) : Reachable m'
  | setPayload {m m' : Module} {id : Nat} {t : Tensor Single} (h : Reachable m)
      (hm : m.setPayload id t = .ok m') : Reachable m'
  | setElements {m m' : Module} {id : Nat} {elements : Payload Single} (h : Reachable m)
      (hm : m.setElements id elements = .ok m') : Reachable m'
  | setTrainable {m m' : Module} {id : Nat} {trainable : Bool} (h : Reachable m)
      (hm : m.setTrainable id trainable = .ok m') : Reachable m'
  | createVariable {m : Module} (h : Reachable m) (name : String) (payload : Tensor Single)
      (isPublic trainable : Bool) : Reachable (m.createVariable name payload isPublic trainable).2
  | createPlaceholder {m : Module} (h : Reachable m) (name : String) (type : TensorType)
      (trainable : Bool) : Reachable (m.createPlaceholder name type trainable).2
  | createNode {m : Module} (h : Reachable m) (f : Nat) (name : String) (op : Operator)
      (inputs : List Value) : Reachable (m.createNode f name op inputs).2
  | createConvolution {m : Module} (h : Reachable m) (f : Nat) (name : String) (input : Value)
      (p : Convolution) : Reachable (m.createConvolution f name input p).2
  | createDense {m : Module} (h : Reachable m) (f : Nat) (name : String) (input : Value)
      (depth : Nat) : Reachable (m.createDense f name input depth).2
  | createOutput {m : Module} (h : Reachable m) (f : Nat) (name : String) (value : Value) :
      Reachable (m.createOutput f name value).2
  | differentiate {m m' : Module} {id k : Nat} {settings : Descent} (h : Reachable m)
      (hm : m.differentiate id settings = .ok (k, m')) : Reachable m'
  | compile {e : Engine} (h : Reachable e.module) (mode : Mode) (id : Nat) :
      Reachable (e.compile mode id).2.module
  | run {e : Engine} (h : Reachable e.module) (key : String) (c : Context) :
      Reachable (e.run key c).2.1.module

theorem Reachable.numbered {m : Module} (h : m.Reachable) : m.Numbered := by
  induction h with
  | withSeed seed => nofun
  | createFunction _ name ih => exact ih.changed (.createFunction ..)
  | cloneFunction _ hm ih => exact ih.changed (.cloneFunction hm)
  | eraseFunction _ hm ih => exact ih.changed (.eraseFunction hm)
  | eliminateDead _ hm ih => exact ih.changed (.eliminateDead hm)
  | setPayload _ hm ih => exact ih.changed (.setPayload hm)
  | setElements _ hm ih => exact ih.changed (.setElements hm)
  | setTrainable _ hm ih => exact ih.changed (.setTrainable hm)
  | createVariable _ name payload isPublic trainable ih => exact ih.changed (.createVariable ..)
  | createPlaceholder _ name type trainable ih => exact ih.changed (.createPlaceholder ..)
  | createNode _ f name op inputs ih => exact ih.changed (.createNode ..)
  | createConvolution _ f name input p ih => exact ih.changed (.createConvolution ..)
  | createDense _ f name input depth ih => exact ih.changed (.createDense ..)
  | createOutput _ f name value ih => exact ih.changed (.createOutput ..)
  | differentiate _ hm ih => exact ih.changed (.differentiate hm)
  | compile _ mode id ih => exact ih.changed (.compile ..)
  | run _ key c ih => exact ih.changed (.run ..)

end TensorCompiler.Module
