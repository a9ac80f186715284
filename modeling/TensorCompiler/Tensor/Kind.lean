import TensorCompiler.Tensor.Shape

/-!
Element kinds and tensor types: the static type of every graph value and buffer.
-/

namespace TensorCompiler

/-- What a tensor's elements are: single-precision numbers, or 64-bit signed integers. -/
inductive ElementKind where
  | float
  | index
deriving DecidableEq, Repr, Inhabited

namespace ElementKind

def bytes : ElementKind → Nat
  | .float => 4
  | .index => 8

/-- The kind inside a type's text. -/
def text : ElementKind → String
  | .float => "float"
  | .index => "index"

/-- The kind's own name, as artifacts and messages have it. -/
def name : ElementKind → String
  | .float => "Float"
  | .index => "Index"

end ElementKind

structure TensorType where
  kind : ElementKind
  shape : Shape
deriving DecidableEq, Repr, Inhabited

namespace TensorType

def float (shape : Shape) : TensorType := ⟨.float, shape⟩
def index (shape : Shape) : TensorType := ⟨.index, shape⟩

def volume (t : TensorType) : Nat := t.shape.volume

def elements (t : TensorType) : Nat := t.shape.elements

def bytes (t : TensorType) : Nat := Word.wrap (t.elements * t.kind.bytes)

def rank (t : TensorType) : Nat := t.shape.length

def isFloat (t : TensorType) : Bool := t.kind = .float

/-- `tensor<float x 2x3>`. -/
def text (t : TensorType) : String := "tensor<" ++ t.kind.text ++ " x " ++ t.shape.text ++ ">"

end TensorType

end TensorCompiler
