import TensorCompiler.Format.Json

/-!
Reading JSON text. Every reader takes the characters that are left and gives back what follows the
value; the fuel of the value reader is the number of characters, and each step uses at least one.
-/

namespace TensorCompiler.Json

def isBlank (c : Char) : Bool := c = ' ' || c = '\n' || c = '\t' || c = '\r'

def isDigit (c : Char) : Bool := '0' ≤ c && c ≤ '9'

def skipBlank (cs : List Char) : List Char := cs.dropWhile isBlank

/-- What stands before the closing quote, and what follows it. -/
def readRaw : List Char → Option (List Char × List Char)
  | [] => none
  | '"' :: rest => some ([], rest)
  | '\\' :: 'u' :: a :: b :: c :: d :: rest =>
    match hex4? a b c d with
    | some _ => (readRaw rest).map fun (raw, rest) => ('\\' :: 'u' :: a :: b :: c :: d :: raw, rest)
    | none => none
  | '\\' :: e :: rest =>
    match shortEscape? e with
    | some _ => (readRaw rest).map fun (raw, rest) => ('\\' :: e :: raw, rest)
    | none => none
  | c :: rest =>
    if c.toNat < 32 ∨ c = '\\' then none else (readRaw rest).map fun (raw, rest) => (c :: raw, rest)

/-- The longest run of digits, if there is one. -/
def readDigits (cs : List Char) : Option (List Char × List Char) :=
  let digits := cs.takeWhile isDigit
  if digits = [] then none else some (digits, cs.dropWhile isDigit)

/-- The whole part of a number: a lone zero, or digits that do not start with one. -/
def readWhole : List Char → Option (List Char × List Char)
  | '0' :: rest => some (['0'], rest)
  | cs => readDigits cs

def readFraction : List Char → Option (List Char × List Char)
  | '.' :: rest => (readDigits rest).map fun (digits, rest) => ('.' :: digits, rest)
  | cs => some ([], cs)

def readExponent : List Char → Option (List Char × List Char)
  | e :: rest =>
    if e = 'e' ∨ e = 'E' then
      match rest with
      | s :: rest' =>
        if s = '+' ∨ s = '-' then
          (readDigits rest').map fun (digits, rest) => (e :: s :: digits, rest)
        else (readDigits rest).map fun (digits, rest) => (e :: digits, rest)
      | [] => none
    else some ([], e :: rest)
  | [] => some ([], [])

/-- A number without its sign. -/
def readMagnitude (cs : List Char) : Option (List Char × List Char) := do
  let (whole, cs) ← readWhole cs
  let (fraction, cs) ← readFraction cs
  let (exponent, cs) ← readExponent cs
  return (whole ++ fraction ++ exponent, cs)

def readNumber : List Char → Option (List Char × List Char)
  | '-' :: rest => (readMagnitude rest).map fun (lexeme, rest) => ('-' :: lexeme, rest)
  | cs => readMagnitude cs

/-- A fixed word. -/
def readWord (word : List Char) (value : Json) (cs : List Char) : Option (Json × List Char) :=
  if word.isPrefixOf cs then some (value, cs.drop word.length) else none

mutual

/-- One value, blanks before it allowed. -/
def readValue : Nat → List Char → Option (Json × List Char)
  | 0, _ => none
  | fuel + 1, cs =>
    match skipBlank cs with
    | 'n' :: cs => readWord "ull".toList null cs
    | 't' :: cs => readWord "rue".toList (bool true) cs
    | 'f' :: cs => readWord "alse".toList (bool false) cs
    | '"' :: cs => (readRaw cs).map fun (raw, cs) => (string raw, cs)
    | '[' :: cs =>
      match skipBlank cs with
      | ']' :: cs => some (array [], cs)
      | cs => (readItems fuel cs).map fun (items, cs) => (array items, cs)
    | '\x7b' :: cs =>
      match skipBlank cs with
      | '\x7d' :: cs => some (object [], cs)
      | cs => (readFields fuel cs).map fun (fields, cs) => (object fields, cs)
    | cs => (readNumber cs).map fun (lexeme, cs) => (number lexeme, cs)

/-- The items of an array and its closing bracket. -/
def readItems : Nat → List Char → Option (List Json × List Char)
  | 0, _ => none
  | fuel + 1, cs => do
    let (item, cs) ← readValue fuel cs
    match skipBlank cs with
    | ',' :: cs =>
      let (items, cs) ← readItems fuel cs
      return (item :: items, cs)
    | ']' :: cs => return ([item], cs)
    | _ => none

/-- The fields of an object and its closing brace. -/
def readFields : Nat → List Char → Option (List (List Char × Json) × List Char)
  | 0, _ => none
  | fuel + 1, cs =>
    match skipBlank cs with
    | '"' :: cs => do
      let (key, cs) ← readRaw cs
      match skipBlank cs with
      | ':' :: cs =>
        let (value, cs) ← readValue fuel cs
        match skipBlank cs with
        | ',' :: cs =>
          let (fields, cs) ← readFields fuel cs
          return ((key, value) :: fields, cs)
        | '\x7d' :: cs => return ([(key, value)], cs)
        | _ => none
      | _ => none
    | _ => none

end

/-- The value of a whole text, with nothing but blanks around it. -/
def ofText? (text : String) : Option Json :=
  let cs := text.toList
  match readValue (cs.length + 1) cs with
  | some (value, rest) => if skipBlank rest = [] then some value else none
  | none => none

end TensorCompiler.Json
