/-!
JSON syntax trees and their text. Numbers and strings keep their written form, so that reading a
text loses nothing that a later decoder may care about; `escape` and `unescape` give the written
form of a string its meaning.
-/

namespace TensorCompiler

/-- A JSON value; a string or key is what stands between its quotes. -/
inductive Json where
  | null
  | bool (b : Bool)
  | number (lexeme : List Char)
  | string (raw : List Char)
  | array (items : List Json)
  | object (fields : List (List Char × Json))

namespace Json

def hexDigit? (c : Char) : Option Nat :=
  if '0' ≤ c ∧ c ≤ '9' then some (c.toNat - 48)
  else if 'a' ≤ c ∧ c ≤ 'f' then some (c.toNat - 87)
  else if 'A' ≤ c ∧ c ≤ 'F' then some (c.toNat - 55)
  else none

/-- The value of four hexadecimal digits. -/
def hex4? (a b c d : Char) : Option Nat := do
  return ((← hexDigit? a) * 4096 + (← hexDigit? b) * 256 + (← hexDigit? c) * 16 + (← hexDigit? d))

/-- A character inside quotes: quotes, backslashes and control characters are escaped. -/
def escapeChar (c : Char) : List Char :=
  if c = '"' then ['\\', '"']
  else if c = '\\' then ['\\', '\\']
  else if c = '\n' then ['\\', 'n']
  else if c = '\r' then ['\\', 'r']
  else if c = '\t' then ['\\', 't']
  else if c = '\x08' then ['\\', 'b']
  else if c = '\x0c' then ['\\', 'f']
  else if c.toNat < 32 then
    ['\\', 'u', '0', '0', Nat.digitChar (c.toNat / 16), Nat.digitChar (c.toNat % 16)]
  else [c]

def escape (s : List Char) : List Char := s.flatMap escapeChar

/-- The character of a short escape. -/
def shortEscape? : Char → Option Char
  | '"' => some '"'
  | '\\' => some '\\'
  | '/' => some '/'
  | 'b' => some '\x08'
  | 'f' => some '\x0c'
  | 'n' => some '\n'
  | 'r' => some '\r'
  | 't' => some '\t'
  | _ => none

/-- A character given by a 16-bit unit, if the unit stands for one on its own. -/
def unitChar? (n : Nat) : Option Char :=
  if h : n.isValidChar then some (Char.ofNatAux n h) else none

/-- A character beyond 16 bits, given by its two surrogates. -/
def pairChar? (high low : Nat) : Option Char :=
  if 0xD800 ≤ high ∧ high < 0xDC00 ∧ 0xDC00 ≤ low ∧ low < 0xE000 then
    unitChar? (0x10000 + (high - 0xD800) * 0x400 + (low - 0xDC00))
  else none

/-- The string that is written as `raw`; a surrogate without its partner makes it fail. -/
def unescape : List Char → Option (List Char)
  | [] => some []
  | '\\' :: 'u' :: a :: b :: c :: d :: rest =>
    match hex4? a b c d with
    | none => none
    | some high =>
      match unitChar? high with
      | some ch => (unescape rest).map (ch :: ·)
      | none =>
        match rest with
        | '\\' :: 'u' :: a :: b :: c :: d :: rest =>
          match (hex4? a b c d).bind (pairChar? high) with
          | some ch => (unescape rest).map (ch :: ·)
          | none => none
        | _ => none
  | '\\' :: e :: rest =>
    match shortEscape? e with
    | some ch => (unescape rest).map (ch :: ·)
    | none => none
  | ['\\'] => none
  | c :: rest => (unescape rest).map (c :: ·)

/-- A string value. -/
def ofString (s : String) : Json := string (escape s.toList)

def ofNat (n : Nat) : Json := number (Nat.toDigits 10 n)

/-- An object with the given field names. -/
def record (fields : List (String × Json)) : Json :=
  object (fields.map fun (k, v) => (escape k.toList, v))

/-- `{"name": value}`: a constructor with its argument. -/
def variant (name : String) (value : Json) : Json := record [(name, value)]

def quote (raw : List Char) : List Char := '"' :: raw ++ ['"']

def indent (depth : Nat) : List Char := '\n' :: List.replicate (2 * depth) ' '

mutual

/-- Text over several lines: one item or field per line, two blanks per level. -/
def pretty (depth : Nat) : Json → List Char
  | null => "null".toList
  | bool true => "true".toList
  | bool false => "false".toList
  | number lexeme => lexeme
  | string raw => quote raw
  | array [] => "[]".toList
  | array (j :: js) => '[' :: prettyItems (depth + 1) (j :: js) ++ indent depth ++ [']']
  | object [] => "\x7b\x7d".toList
  | object (f :: fs) => '\x7b' :: prettyFields (depth + 1) (f :: fs) ++ indent depth ++ ['\x7d']

def prettyItems (depth : Nat) : List Json → List Char
  | [] => []
  | [j] => indent depth ++ pretty depth j
  | j :: js => indent depth ++ pretty depth j ++ [','] ++ prettyItems depth js

def prettyFields (depth : Nat) : List (List Char × Json) → List Char
  | [] => []
  | [(k, v)] => indent depth ++ quote k ++ [':', ' '] ++ pretty depth v
  | (k, v) :: fs =>
    indent depth ++ quote k ++ [':', ' '] ++ pretty depth v ++ [','] ++ prettyFields depth fs

end

mutual

/-- Text on one line without blanks. -/
def compact : Json → List Char
  | null => "null".toList
  | bool true => "true".toList
  | bool false => "false".toList
  | number lexeme => lexeme
  | string raw => quote raw
  | array items => '[' :: compactItems items ++ [']']
  | object fields => '\x7b' :: compactFields fields ++ ['\x7d']

def compactItems : List Json → List Char
  | [] => []
  | [j] => compact j
  | j :: js => compact j ++ [','] ++ compactItems js

def compactFields : List (List Char × Json) → List Char
  | [] => []
  | [(k, v)] => quote k ++ [':'] ++ compact v
  | (k, v) :: fs => quote k ++ [':'] ++ compact v ++ [','] ++ compactFields fs

end

end Json

end TensorCompiler
