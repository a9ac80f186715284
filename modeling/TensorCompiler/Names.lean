/-!
Names of functions, storage and nodes. Every group records the names that are taken: a new object
takes one, and an object that goes gives its own back. A name that is taken gets the smallest free
number.
-/

namespace TensorCompiler.Names

/-- What an object is called that asks for a name; one that asks for none is anonymous. -/
def base (name : String) : String := if name = "" then "anon" else name

def numbered (base : String) (n : Nat) : String := base ++ "__" ++ Nat.repr n

/-- The name itself if it is free, otherwise the name with the smallest number that makes it free.
Among one more number than there are names, one is free. -/
def fresh (taken : List String) (name : String) : String :=
  if base name ∉ taken then base name
  else
    match (List.range (taken.length + 1)).find? fun n => numbered (base name) (n + 1) ∉ taken with
    | some n => numbered (base name) (n + 1)
    | none => base name

/-- The names that are taken after some have been given back. -/
def release (taken names : List String) : List String := taken.filter (· ∉ names)

@[simp] theorem mem_release {taken names : List String} {name : String} :
    name ∈ release taken names ↔ name ∈ taken ∧ name ∉ names := by
  simp [release]

@[simp] theorem release_nil (taken : List String) : release taken [] = taken := by
  simp [release]

end TensorCompiler.Names
