import TensorCompiler.Artifact.Json

/-!
Settings of gradient descent: their defaults, which of them are valid, and their JSON form.
-/

namespace TensorCompiler

/-- Why settings are not valid. -/
inductive SettingsFault where
  | learningRate (x : Single)
  | momentum (x : Single)
  | decay
  | batchSize
deriving DecidableEq, Repr

namespace SettingsFault

def message : SettingsFault → String
  | learningRate x => "learning rate " ++ x.display ++ " is not finite"
  | momentum x => "momentum " ++ x.display ++ " is outside [0, 1)"
  | decay => "decay coefficients must be non-negative"
  | batchSize => "batch size must be positive"

end SettingsFault

namespace Descent

/-- Rate 0.01, no momentum, no decay, batches of one. -/
def standard : Descent := ⟨⟨0x3c23d70a⟩, 0, 0, 0, 1⟩

/-- At least zero and less than one. -/
def isFraction (x : Single) : Bool := (0 < x || x == 0) && x < (1 : Single)

/-- The first setting that is not valid. A decay that is not a number is not negative. -/
def check (p : Descent) : Except SettingsFault Unit :=
  if !p.learningRate.isFinite then .error (.learningRate p.learningRate)
  else if !isFraction p.momentum then .error (.momentum p.momentum)
  else if p.l1Decay < 0 ∨ p.l2Decay < 0 then .error .decay
  else if p.batchSize = 0 then .error .batchSize
  else .ok ()

/-- A setting that is absent keeps its default. -/
def orElse {β : Type} (read : Json → Option β) (fallback : β) : Option Json → Option β
  | none => some fallback
  | some j => read j

/-- Settings from JSON, where every field may be absent. -/
def ofPartialJson? (j : Json) : Option Descent := do
  match ← Json.partial? fieldNames j with
  | [rate, momentum, l1, l2, batch] =>
    return {
      learningRate := ← orElse Json.single? standard.learningRate rate
      momentum := ← orElse Json.single? standard.momentum momentum
      l1Decay := ← orElse Json.single? standard.l1Decay l1
      l2Decay := ← orElse Json.single? standard.l2Decay l2
      batchSize := ← orElse Json.size? standard.batchSize batch }
  | _ => none

def ofJsonText? (text : String) : Option Descent := (Json.ofText? text).bind ofPartialJson?

/-- The settings on one line. -/
def jsonText (p : Descent) : String := String.ofList p.toJson.compact

end Descent

end TensorCompiler
