import TensorCompiler.Artifact.Lowering
import TensorCompiler.Training.Adjoint

/-!
The engine: a module, the artifacts compiled from its functions by name, and their optimizer state.
A run checks every placeholder the artifact touches before it starts; what it stored before a
failure stays.
-/

namespace TensorCompiler

/-- The placeholders bound for runs. -/
abbrev Context := IdMap (Tensor Single)

namespace Context

/-- Binds a zero tensor of the placeholder's type. -/
def allocate (c : Context) (s : Storage) (placeholder : Nat) :
    Except Error (Tensor Single × Context) :=
  match s.type? (.placeholder placeholder) with
  | some type => .ok (.zeros type, c.insert placeholder (.zeros type))
  | none => .error (.unknownStorage (.placeholder placeholder))

end Context

/-- How a function is compiled. -/
inductive Mode where
  | infer
  /-- With the settings of gradient descent, if there are any. -/
  | train (settings : Option Descent)

/-- An artifact with the function it was lowered from and its optimizer state. -/
structure Compiled where
  function : Nat
  artifact : Artifact
  state : IdMap (Tensor Single)

structure Engine where
  module : Module
  reuse : Bool
  compiled : List (String × Compiled)

namespace Engine

/-- An engine over a module; artifacts reuse arena slots unless told otherwise. -/
def ofModule (module : Module) (reuse : Bool) : Engine := { module, reuse, compiled := [] }

def get? (e : Engine) (key : String) : Option Compiled := e.compiled.lookup key

/-- The entry of a key replaced, or added. -/
def put (e : Engine) (key : String) (c : Compiled) : Engine :=
  { e with compiled := (key, c) :: e.compiled.filter (·.1 ≠ key) }

/-- The function to lower: the given one, or its training function, added to the module. -/
def target (m : Module) (mode : Mode) (id : Nat) : Except Error (Nat × Module) :=
  match mode with
  | .infer => .ok (id, m)
  | .train none => .error .missingSettings
  | .train (some settings) => m.differentiate id settings

/-- Optimizer state as it starts. -/
def zeroState (a : Artifact) : IdMap (Tensor Single) :=
  .ofList (a.stateBuffers.map fun b => (b.id, .zeros b.type))

/-- Compiles a function, and gives the key of the artifact: the name of the function lowered. A
training function is dropped again when it cannot be lowered. -/
def compile (e : Engine) (mode : Mode) (id : Nat) : Except Error String × Engine :=
  match target e.module mode id with
  | .error error => (.error error, e)
  | .ok (function, m) =>
    match m.lower function e.reuse with
    | .ok artifact =>
      let c := { function, artifact, state := zeroState artifact }
      (.ok artifact.name, { e with module := m }.put artifact.name c)
    | .error error =>
      let m := if function = id then m else m.withoutFunction function
      (.error error, { e with module := m })

/-- Every placeholder of the artifact is bound to a tensor of its type. -/
def checkBindings (s : Storage) (c : Context) (a : Artifact) : Except Error Unit :=
  a.weights.forM fun
    | (_, .var _) => .ok ()
    | (_, .placeholder id) =>
      match s.placeholders[id]? with
      | none => .error (.unknownStorage (.placeholder id))
      | some p =>
        match c.get? id with
        | none => .error (.unboundPlaceholder p.name)
        | some t =>
          if t.type = p.type then .ok () else .error (.bindingMismatch p.name p.type t.type)

/-- Puts the contents of the variables after a run back into their declarations. -/
def restore (s : Storage) (contents : List (Tensor Single)) : Storage :=
  { s with vars := s.vars.zipWith (fun v t => { v with payload := t }) contents }

/-- Runs a compiled artifact on a context. -/
def run (e : Engine) (key : String) (c : Context) : Except Error Unit × Engine × Context :=
  match e.get? key with
  | none => (.error (.notCompiled key), e, c)
  | some compiled =>
    let s := e.module.storage
    match checkBindings s c compiled.artifact with
    | .error error => (.error error, e, c)
    | .ok () =>
      let start := Memory.start compiled.artifact (s.vars.map (·.payload)) c compiled.state
      let (result, m) := compiled.artifact.run start
      let e := { e with module := { e.module with storage := restore s m.vars } }
      (result.mapError .run, e.put key { compiled with state := m.state }, m.bindings)

end Engine

end TensorCompiler
