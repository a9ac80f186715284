import TensorCompiler.Format.JsonText
import TensorCompiler.Number.Scaling

/-!
What JSON values mean to the decoders: numbers, strings, lists, records and constructors. A record
may be written as an object, with unknown fields ignored, or as the array of its fields in order.
-/

namespace TensorCompiler.Json

/-- The number that decimal digits write. -/
def natOfDigits (digits : List Char) : Nat :=
  digits.foldl (fun n c => n * 10 + (c.toNat - 48)) 0

/-- A written number, taken apart. -/
structure Numeral where
  negative : Bool
  value : Decimal
  /-- A whole number within 64 bits, written without point and exponent. -/
  isPlain : Bool

/-- The number that digits write after the digits of `start`, as long as it fits in 64 bits, and the
digits left over. -/
def significand (start : Nat) : List Char → Nat × List Char
  | [] => (start, [])
  | c :: rest =>
    let next := start * 10 + (c.toNat - 48)
    if next < UInt64.size then significand next rest else (start, c :: rest)

/-- The exponent after its letter. -/
def exponentOf : List Char → Int
  | '-' :: digits => -(natOfDigits digits)
  | '+' :: digits => natOfDigits digits
  | digits => natOfDigits digits

/-- The significand of a numeral is what fits in 64 bits of its digits. Digits before the point that
are left over raise the exponent, those after it are dropped. -/
def Numeral.ofLexeme (lexeme : List Char) : Numeral :=
  let negative := lexeme.head? = some '-'
  let body := if negative then lexeme.drop 1 else lexeme
  let mantissa := body.takeWhile fun c => c ≠ 'e' && c ≠ 'E'
  let exponent := (body.drop mantissa.length).drop 1
  let whole := mantissa.takeWhile (· ≠ '.')
  let fraction := (mantissa.drop whole.length).drop 1
  let (start, raised) := significand 0 whole
  let (digits, dropped) := significand start fraction
  { negative
    value := ⟨digits, exponentOf exponent + raised.length + dropped.length - fraction.length⟩
    isPlain := exponent = [] && fraction = [] && raised = [] }

/-- A plain number below `limit`, written without a sign. -/
def nat? (limit : Nat) : Json → Option Nat
  | number lexeme =>
    let n := Numeral.ofLexeme lexeme
    if n.isPlain && !n.negative && n.value.digits < limit then some n.value.digits else none
  | _ => none

/-- The number of a buffer, variable or placeholder. -/
def id? : Json → Option Nat := nat? UInt32.size

/-- An extent, a position or a count. -/
def size? : Json → Option Nat := nat? UInt64.size

/-- A single-precision number. A plain number is rounded once, unless it is negative and beyond 64
bits with its sign; any other is read by scaling in double precision, beyond which it is refused. -/
def single? : Json → Option Single
  | number lexeme =>
    let n := Numeral.ofLexeme lexeme
    let limit := if n.negative then 0x8000000000000001 else UInt64.size
    if n.isPlain && n.value.digits < limit then some (.ofPattern n.negative n.value.direct)
    else Single.ofDecimal? n.negative n.value
  | _ => none

def string? : Json → Option String
  | string raw => (unescape raw).map String.ofList
  | _ => none

def list? {β : Type} (item? : Json → Option β) : Json → Option (List β)
  | array items => items.mapM item?
  | _ => none

/-- The key of a map, written as a plain number in quotes. -/
def idKey? (raw : List Char) : Option Nat :=
  match readNumber raw with
  | some (lexeme, []) => id? (number lexeme)
  | _ => none

/-- A map from ids; of fields with the same key the last counts. -/
def idMap? {β : Type} (item? : Json → Option β) : Json → Option (List (Nat × β))
  | object fields => fields.mapM fun (k, v) => do return (← idKey? k, ← item? v)
  | _ => none

/-- The value of the field `name`, if there is one; a second one is refused. -/
def field? (fields : List (List Char × Json)) (name : String) : Option (Option Json) :=
  match fields.filter fun f => f.1 = name.toList with
  | [] => some none
  | [f] => some (some f.2)
  | _ => none

/-- The fields of a record that are there, in the order of `names`. -/
def partial? (names : List String) : Json → Option (List (Option Json))
  | object fields => do
    let named ← fields.mapM fun (k, v) => do return (← unescape k, v)
    names.mapM (field? named)
  | array items =>
    if items.length ≤ names.length then
      some (items.map some ++ List.replicate (names.length - items.length) none)
    else none
  | _ => none

/-- The fields of a record, all of which must be there. -/
def record? (names : List String) (j : Json) : Option (List Json) := do
  (← partial? names j).mapM id

/-- A constructor, with its argument if it is written as an object. -/
def variant? : Json → Option (String × Option Json)
  | string raw => do return (String.ofList (← unescape raw), none)
  | object [(k, v)] => do return (String.ofList (← unescape k), some v)
  | _ => none

/-- A constructor without argument may also be written with a null one. -/
def isUnit : Option Json → Bool
  | none => true
  | some null => true
  | some _ => false

/-- The text of a single-precision number; those that are not finite have none. -/
def ofSingle (x : Single) : Json :=
  if x.isFinite then number x.decimalText.toList else null

end TensorCompiler.Json
