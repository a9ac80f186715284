import TensorCompiler.Number.Scalar
import TensorCompiler.Tensor.Dense
import TensorCompiler.Tensor.Kind
import TensorCompiler.Text

/-!
Tensors: a row-major array of numbers, or of indices. A `Payload` is the bare elements;
`ofPayload_eq_ok` says when a payload makes a tensor of a type. Elements are read and written at
coordinates; a position outside the payload is an error.
-/

namespace TensorCompiler

/-- The elements of a tensor without a shape. -/
inductive Payload (α : Type) where
  | floats (values : Array α)
  | indices (values : Array Int64)
deriving DecidableEq

namespace Payload

variable {α : Type}

def kind : Payload α → ElementKind
  | floats _ => .float
  | indices _ => .index

def size : Payload α → Nat
  | floats v => v.size
  | indices v => v.size

end Payload

/-- A tensor whose elements are numbers of `α`, or indices. -/
inductive Tensor (α : Type) where
  | floats (d : Shaped α)
  | indices (d : Shaped Int64)
deriving DecidableEq, Inhabited

/-- Why elements do not make, or are not addressed in, a tensor. -/
inductive TensorError where
  | kind (expected found : ElementKind)
  | payloadSize (size : Nat) (type : TensorType)
  | assignSize (size expected : Nat)
  | coordinates (coords : List Nat) (shape : Shape)
  | position (index size : Nat)
deriving DecidableEq, Repr

namespace TensorError

/-- A shape mismatch names the operation it arose in. -/
def shapeText (op detail : String) : String := "shape mismatch in " ++ op ++ ": " ++ detail

def message : TensorError → String
  | kind expected found =>
    "element kind mismatch: expected " ++ expected.name ++ ", found " ++ found.name
  | payloadSize size type =>
    shapeText "tensor" ("payload has " ++ Nat.repr size ++ " elements but " ++ type.text ++
      " requires " ++ Nat.repr type.elements)
  | assignSize size expected =>
    shapeText "assign" (Nat.repr size ++ " values for a tensor of " ++ Nat.repr expected ++
      " elements")
  | coordinates coords shape =>
    "coordinates " ++ Text.natList coords ++ " out of range for shape " ++ Text.natList shape
  | position index size =>
    "index out of bounds: the len is " ++ Nat.repr size ++ " but the index is " ++ Nat.repr index

end TensorError

namespace Shaped

variable {β : Type}

/-- The element at the coordinates, or nothing where they have no position. -/
def get (d : Shaped β) (coords : List Nat) : Except TensorError (Option β) :=
  match d.shape.index? coords with
  | none => .ok none
  | some i =>
    match d.values[i]? with
    | some b => .ok (some b)
    | none => .error (.position i d.values.size)

/-- The element at the coordinates. -/
def element (d : Shaped β) (coords : List Nat) : Except TensorError β := do
  match ← d.get coords with
  | some b => return b
  | none => throw (.coordinates coords d.shape)

/-- The array with the element at the coordinates replaced. -/
def withElement (d : Shaped β) (coords : List Nat) (b : β) : Except TensorError (Shaped β) :=
  match d.shape.index? coords with
  | none => .error (.coordinates coords d.shape)
  | some i =>
    match d.setFlat? i b with
    | some d => .ok d
    | none => .error (.position i d.values.size)

/-- The array with all its elements replaced, in row-major order. -/
def withElements (d : Shaped β) (values : Array β) : Except TensorError (Shaped β) :=
  match d.assign? values with
  | some d => .ok d
  | none => .error (.assignSize values.size d.values.size)

end Shaped

namespace Tensor

variable {α : Type}

def type : Tensor α → TensorType
  | floats d => .float d.shape
  | indices d => .index d.shape

def shape (t : Tensor α) : Shape := t.type.shape

def payload : Tensor α → Payload α
  | floats d => .floats d.values
  | indices d => .indices d.values

/-- A payload under a type; its kind is checked before its size. -/
def ofPayload (type : TensorType) (payload : Payload α) : Except TensorError (Tensor α) :=
  match type.kind, payload with
  | .float, .floats values =>
    if h : type.shape.Accepts values.size then .ok (floats ⟨type.shape, values, h⟩)
    else .error (.payloadSize values.size type)
  | .index, .indices values =>
    if h : type.shape.Accepts values.size then .ok (indices ⟨type.shape, values, h⟩)
    else .error (.payloadSize values.size type)
  | expected, payload => .error (.kind expected payload.kind)

/-- Other elements under the same type. -/
def withPayload (t : Tensor α) (payload : Payload α) : Except TensorError (Tensor α) :=
  ofPayload t.type payload

/-- The tensor of a type whose elements are all zero. -/
def zeros [Zero α] (type : TensorType) : Tensor α :=
  match type.kind with
  | .float => floats (.replicate type.shape 0)
  | .index => indices (.replicate type.shape 0)

/-- The numbers of a float tensor. -/
def asFloats : Tensor α → Except TensorError (Shaped α)
  | floats d => .ok d
  | indices _ => .error (.kind .float .index)

/-- The integers of an index tensor. -/
def asIndices : Tensor α → Except TensorError (Shaped Int64)
  | indices d => .ok d
  | floats _ => .error (.kind .index .float)

/-- Equal types and elementwise equal numbers, as numbers compare. -/
def numericEq : Tensor Single → Tensor Single → Bool
  | floats d, floats e => d.shape = e.shape && d.values.isEqv e.values (· == ·)
  | indices d, indices e => d = e
  | _, _ => false

theorem ofPayload_eq_ok {type : TensorType} {payload : Payload α} {t : Tensor α} :
    ofPayload type payload = .ok t ↔ t.type = type ∧ t.payload = payload := by
  rcases type with ⟨kind, shape⟩
  constructor
  · intro h
    cases kind with
    | float =>
      cases payload with
      | floats v =>
        simp only [ofPayload] at h
        split at h <;> cases h
        exact ⟨rfl, rfl⟩
      | indices v => cases h
    | index =>
      cases payload with
      | floats v => cases h
      | indices v =>
        simp only [ofPayload] at h
        split at h <;> cases h
        exact ⟨rfl, rfl⟩
  · rintro ⟨ht, rfl⟩
    rcases t with ⟨s, v, hv⟩ | ⟨s, v, hv⟩ <;>
      simp [type, TensorType.float, TensorType.index] at ht <;>
      obtain ⟨rfl, rfl⟩ := ht <;> simp [ofPayload, payload, hv]

theorem type_zeros [Zero α] (type : TensorType) : (zeros type : Tensor α).type = type := by
  rcases type with ⟨_ | _, _⟩ <;> rfl

end Tensor

end TensorCompiler
