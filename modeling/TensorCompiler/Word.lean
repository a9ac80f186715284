/-!
Machine words. Sizes and positions are unsigned words: of a sum or a product a word keeps the
remainder by `Word.size`, so both are exact as long as they stay below it (`wrap_of_lt`), and
wrapping early or late makes no difference (`wrap_mul_wrap`, `wrap_add_wrap`).
-/

namespace TensorCompiler.Word

/-- How many values a word has. -/
def size : Nat := Nat.pow 2 64

/-- What a word keeps of a number. -/
def wrap (n : Nat) : Nat := n % size

/-- The modulus of positions in a payload of the given size. It is that of a word; a payload that no
word could count is addressed as by a machine with wider ones. -/
def modulus (payload : Nat) : Nat := max size payload

theorem wrap_of_lt {n : Nat} (h : n < size) : wrap n = n := Nat.mod_eq_of_lt h

theorem wrap_lt (n : Nat) : wrap n < size := Nat.mod_lt n (by decide)

@[simp] theorem wrap_wrap (n : Nat) : wrap (wrap n) = wrap n := wrap_of_lt (wrap_lt n)

theorem wrap_le (n : Nat) : wrap n ≤ n := Nat.mod_le n size

theorem wrap_mul_wrap (m n : Nat) : wrap (wrap m * n) = wrap (m * n) := Nat.mod_mul_mod m n size

theorem wrap_add_wrap (m n : Nat) : wrap (wrap m + n) = wrap (m + n) := Nat.mod_add_mod m size n

theorem le_modulus (payload : Nat) : payload ≤ modulus payload := Nat.le_max_right ..

end TensorCompiler.Word
