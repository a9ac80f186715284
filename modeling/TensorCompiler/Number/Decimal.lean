import TensorCompiler.Number.Single

/-!
Decimal text of single-precision numbers, in exact natural arithmetic: a decimal `d * 10 ^ e` has a
nearest number in each format, and a number is written with the fewest digits that it is nearest to.
`direct_shortest` says that the number nearest to what is written is always the number meant.
-/

namespace TensorCompiler

/-- The decimal number `digits * 10 ^ exponent`. -/
structure Decimal where
  digits : Nat
  exponent : Int
deriving DecidableEq, Repr

namespace Decimal

/-- How many decimal digits a number has; one for 0. -/
def length (n : Nat) : Nat :=
  if n < 10 then 1 else length (n / 10) + 1

/-- The value as a fraction of natural numbers. -/
def num (d : Decimal) : Nat := d.digits * Nat.pow 10 d.exponent.toNat
def den (d : Decimal) : Nat := Nat.pow 10 (-d.exponent).toNat

/-- The pattern of `f` nearest to `d`. Values far outside the range of double precision are settled
by their number of digits, so that a huge exponent is never expanded. -/
def toPattern (f : BinaryFormat) (d : Decimal) : Nat :=
  let order := d.exponent + length d.digits
  if d.digits = 0 ∨ order < -400 then 0
  else if 400 < order then f.infinity
  else f.round (d.num * Nat.pow 2 f.scale) d.den

/-- The single-precision pattern nearest to a decimal. -/
def direct (d : Decimal) : Nat := d.toPattern .single

/-- The same value without trailing zeros; the fuel is the number of digits. -/
def trim (d : Decimal) : Decimal := go (length d.digits) d.digits d.exponent
where
  go : Nat → Nat → Int → Decimal
    | 0, n, e => ⟨n, e⟩
    | fuel + 1, n, e => if n ≠ 0 ∧ n % 10 = 0 then go fuel (n / 10) (e + 1) else ⟨n, e⟩

/-- The two neighbours of `num / den` among the multiples of `10 ^ e`, the nearer first. -/
def neighbours (tieUp : Bool) (num den : Nat) (e : Int) : List Decimal :=
  let num := num * Nat.pow 10 (-e).toNat
  let den := den * Nat.pow 10 e.toNat
  let below := num / den
  let twice := 2 * (num % den)
  let up := den < twice || (twice == den && (tieUp || below % 2 == 1))
  if up then [⟨below + 1, e⟩, ⟨below, e⟩] else [⟨below, e⟩, ⟨below + 1, e⟩]

/-- The exact value of a number of units of `2 ^ -149`. -/
def exact (units : Nat) : Decimal := ⟨units * Nat.pow 5 149, -149⟩

/-- The decimals tried for a value: its neighbours among one-digit decimals, two-digit decimals and
so on up to nine. -/
def candidates (tieUp : Bool) (units : Nat) : List Decimal :=
  let order : Int := (length (units * Nat.pow 10 60 / Nat.pow 2 149) : Int) - 61
  (List.range 9).flatMap fun (n : Nat) => neighbours tieUp units (Nat.pow 2 149) (order - n)

/-- The decimal with the fewest digits, at most nine, that `accepts`, and of those the nearest to
the value; the exact value when there is none. `tieUp` settles a decimal halfway between two. -/
def shortest (tieUp : Bool) (accepts : Decimal → Bool) (units : Nat) : Decimal :=
  ((candidates tieUp units).find? accepts).getD (exact units)

theorem shortest_accepted (tieUp : Bool) (accepts : Decimal → Bool) {units : Nat}
    (h : accepts (exact units) = true) : accepts (shortest tieUp accepts units) = true := by
  unfold shortest
  cases h' : (candidates tieUp units).find? accepts with
  | none => exact h
  | some d => exact List.find?_some h'

theorem length_le {n k : Nat} (hk : 0 < k) (h : n < Nat.pow 10 k) : length n ≤ k := by
  rw [Nat.pow_eq] at h
  induction k generalizing n with
  | zero => omega
  | succ k ih =>
    unfold length
    split
    · omega
    · next hn =>
      cases k with
      | zero => omega
      | succ k =>
        have := ih (n := n / 10) (by omega) (by rw [Nat.div_lt_iff_lt_mul (by decide)]; omega)
        omega

theorem toPattern_of_order (f : BinaryFormat) {d : Decimal} (h : d.digits ≠ 0)
    (hlo : -400 ≤ d.exponent + length d.digits) (hhi : d.exponent + length d.digits ≤ 400) :
    d.toPattern f = f.round (d.num * Nat.pow 2 f.scale) d.den := by
  simp only [toPattern]
  rw [if_neg (by omega), if_neg (by omega)]

/-- The exact value of a finite number rounds to that number. -/
theorem direct_exact {p : Nat} (hp : p < BinaryFormat.single.infinity) :
    (exact (BinaryFormat.single.units p)).direct = p := by
  rcases Nat.eq_zero_or_pos p with rfl | hpos
  · decide
  have hu := BinaryFormat.single.units_pos hpos
  have hlt := BinaryFormat.single.units_lt (p := p) (k := 254) hp
  have hr := BinaryFormat.round_units .single (by decide) (Nat.le_of_lt hp)
    (d := 10 ^ 149) (Nat.pow_pos (by decide))
  generalize BinaryFormat.single.units p = u at hu hlt hr ⊢
  have hlen : length (u * 5 ^ 149) ≤ 189 :=
    length_le (by decide) <| Nat.lt_of_lt_of_le
      (Nat.mul_lt_mul_of_pos_right hlt (Nat.pow_pos (by decide))) (by decide +kernel)
  have hdigits : (exact u).digits = u * 5 ^ 149 := rfl
  have hexponent : (exact u).exponent = -149 := rfl
  have hnum : u * 5 ^ 149 * 10 ^ 0 * 2 ^ 149 = u * 10 ^ 149 := by
    rw [Nat.pow_zero, Nat.mul_one, Nat.mul_assoc, ← Nat.mul_pow]
  rw [direct, toPattern_of_order _ (hdigits ▸ Nat.mul_ne_zero (by omega) (by decide))
    (by rw [hdigits]; omega) (by rw [hdigits]; omega), num, den, hdigits, hexponent]
  rw [← hnum] at hr
  exact hr

def zeros (n : Nat) : String := String.ofList (List.replicate n '0')

/-- Positional notation; `point` adds `.0` to a whole number. -/
def positional (point : Bool) (d : Decimal) : String :=
  let ds := Nat.toDigits 10 d.digits
  if 0 ≤ d.exponent then
    String.ofList ds ++ zeros d.exponent.toNat ++ (if point then ".0" else "")
  else
    let after := (-d.exponent).toNat
    if after < ds.length then
      String.ofList (ds.take (ds.length - after)) ++ "." ++
        String.ofList (ds.drop (ds.length - after))
    else "0." ++ zeros (after - ds.length) ++ String.ofList ds

/-- One digit before the point, and a signed exponent of ten. -/
def scientific (d : Decimal) : String :=
  let ds := Nat.toDigits 10 d.digits
  let order := d.exponent + (ds.length : Int) - 1
  let fraction := if ds.length ≤ 1 then "" else "." ++ String.ofList (ds.drop 1)
  let sign := if order < 0 then "-" else "+"
  String.ofList (ds.take 1) ++ fraction ++ "e" ++ sign ++ Nat.repr order.natAbs

end Decimal

namespace Single

/-- The decimal with the fewest digits whose nearest number is `x`, which is finite. -/
def shortest (tieUp : Bool) (x : Single) : Decimal :=
  Decimal.shortest tieUp (fun d => d.direct = x.pattern) x.units

theorem direct_shortest (tieUp : Bool) {x : Single} (hx : x.isFinite = true) :
    (x.shortest tieUp).direct = x.pattern := by
  have hp : x.pattern < BinaryFormat.single.infinity := by simpa [isFinite] using hx
  exact of_decide_eq_true <| Decimal.shortest_accepted tieUp (fun d => d.direct = x.pattern)
    (decide_eq_true (Decimal.direct_exact hp))

/-- Positional text with the fewest digits that read back, never an exponent: `1`, `0.5`, `-0`. -/
def display (x : Single) : String :=
  if x.isNaN then "NaN"
  else
    let sign := if x.isNegative then "-" else ""
    if x.isInfinite then sign ++ "inf"
    else if x.pattern = 0 then sign ++ "0"
    else sign ++ (x.shortest true).trim.positional false

/-- The text of a finite number in an artifact: the fewest digits that read back, positional with a
point for orders -6 to 12, otherwise with an exponent. -/
def decimalText (x : Single) : String :=
  let sign := if x.isNegative then "-" else ""
  if x.pattern = 0 then sign ++ "0.0"
  else
    let d := (x.shortest false).trim
    let order := d.exponent + (Decimal.length d.digits : Int) - 1
    sign ++ (if -6 ≤ order ∧ order ≤ 12 then d.positional true else d.scientific)

end Single

end TensorCompiler
