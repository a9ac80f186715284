import TensorCompiler.IdMap
import TensorCompiler.Number.Single

/-!
Fixed-width binary codecs. A codec writes a value as bytes and reads it back from the front of its
input, giving what follows. Numbers are little endian, lists and texts start with their length.
-/

namespace TensorCompiler

abbrev Bytes := List UInt8

structure Codec (β : Type) where
  write : β → Bytes
  read : Bytes → Option (β × Bytes)

namespace Codec

variable {β γ : Type}

def writeNat : Nat → Nat → Bytes
  | 0, _ => []
  | width + 1, n => UInt8.ofNat n :: writeNat width (n / 256)

def readNat : Nat → Bytes → Option (Nat × Bytes)
  | 0, bytes => some (0, bytes)
  | _ + 1, [] => none
  | width + 1, b :: bytes =>
    (readNat width bytes).map fun (n, rest) => (b.toNat + 256 * n, rest)

/-- A number of `width` bytes, the lowest first. -/
def nat (width : Nat) : Codec Nat := ⟨writeNat width, readNat width⟩

/-- The number of a buffer, variable or placeholder. -/
def id : Codec Nat := nat 4

/-- An extent, a position or a count. -/
def size : Codec Nat := nat 8

def single : Codec Single where
  write x := writeNat 4 x.bits.toNat
  read bytes := (readNat 4 bytes).map fun (n, rest) => (⟨UInt32.ofNat n⟩, rest)

def pair (c : Codec β) (d : Codec γ) : Codec (β × γ) where
  write p := c.write p.1 ++ d.write p.2
  read bytes := do
    let (b, bytes) ← c.read bytes
    let (g, bytes) ← d.read bytes
    return ((b, g), bytes)

/-- The codec of a type whose values are given by those of another. -/
def via (c : Codec β) (give : γ → β) (take : β → γ) : Codec γ where
  write g := c.write (give g)
  read bytes := (c.read bytes).map fun (b, rest) => (take b, rest)

def readMany (c : Codec β) : Nat → Bytes → Option (List β × Bytes)
  | 0, bytes => some ([], bytes)
  | n + 1, bytes => do
    let (b, bytes) ← c.read bytes
    let (bs, bytes) ← readMany c n bytes
    return (b :: bs, bytes)

/-- The length and then the items. -/
def list (c : Codec β) : Codec (List β) where
  write bs := size.write bs.length ++ bs.flatMap c.write
  read bytes := do
    let (n, bytes) ← size.read bytes
    readMany c n bytes

/-- The length in bytes and then the bytes, which must be well-formed. -/
def text : Codec String where
  write s := size.write s.toUTF8.size ++ s.toUTF8.toList
  read bytes := do
    let (n, bytes) ← size.read bytes
    if bytes.length < n then none
    else
      let s ← String.fromUTF8? ⟨(bytes.take n).toArray⟩
      return (s, bytes.drop n)

/-- The entries in ascending order; when read, of entries with the same key the last counts. -/
def idMap (c : Codec β) : Codec (IdMap β) := (list (pair id c)).via IdMap.entries IdMap.ofList

/-- The position of a constructor among those of its type. -/
def tag : Codec Nat := nat 4

/-- Reads the argument of a constructor and applies the constructor to it. -/
def argument (c : Codec β) (make : β → γ) (bytes : Bytes) : Option (γ × Bytes) :=
  (c.read bytes).map fun (b, rest) => (make b, rest)

/-- A type of constructors without arguments, given as the list of them. -/
def enumeration (position : β → Nat) (constructors : List β) : Codec β where
  write b := tag.write (position b)
  read bytes := do
    let (n, bytes) ← tag.read bytes
    return (← constructors[n]?, bytes)

end Codec

end TensorCompiler
