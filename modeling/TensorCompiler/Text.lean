/-!
Small pieces of text that several printers share.
-/

namespace TensorCompiler.Text

/-- `[a, b, c]`. -/
def list (items : List String) : String := "[" ++ ", ".intercalate items ++ "]"

def quoted (s : String) : String := "\"" ++ s ++ "\""

def natList (ns : List Nat) : String := list (ns.map Nat.repr)

end TensorCompiler.Text
