-- Reading JSON text. Every step takes a value off the front of the text
-- and gives the rest; a text that is no JSON value gives nothing.
import Garbling.Json.Value

namespace Garbling.Json

/-- A blank between the parts of a value. -/
def isBlank (c : Char) : Bool := c == ' ' || c == '\n' || c == '\t' || c == '\r'

/-- The text without the blanks in front. -/
def skipBlanks (cs : List Char) : List Char := cs.dropWhile isBlank

/-! ## Numbers -/

/-- The digits in front, at least one of them. -/
def readDigits (cs : List Char) : Option (List Char × List Char) :=
  match cs.takeWhile Char.isDigit with
  | [] => none
  | digits => some (digits, cs.dropWhile Char.isDigit)

/-- The digits before the point: a zero alone, or digits that do not start with one. -/
def readWhole (cs : List Char) : Option (List Char × List Char) := do
  let (digits, rest) ← readDigits cs
  if digits.head? = some '0' && digits.length ≠ 1 then none else return (digits, rest)

/-- A point and digits, or nothing. -/
def readFraction : List Char → Option (List Char × List Char)
  | '.' :: cs => do
    let (digits, rest) ← readDigits cs
    return ('.' :: digits, rest)
  | cs => some ([], cs)

/-- The sign of an exponent, or nothing. -/
def readSign : List Char → List Char × List Char
  | '+' :: cs => (['+'], cs)
  | '-' :: cs => (['-'], cs)
  | cs => ([], cs)

/-- The mark of an exponent, a sign or none, and digits, or nothing at all. -/
def readExponent : List Char → Option (List Char × List Char)
  | [] => some ([], [])
  | mark :: cs =>
    if mark = 'e' ∨ mark = 'E' then do
      let (sign, cs) := readSign cs
      let (digits, rest) ← readDigits cs
      return (mark :: sign ++ digits, rest)
    else
      some ([], mark :: cs)

/-- A number without its sign. -/
def readUnsigned (cs : List Char) : Option (Json × List Char) := do
  let (whole, cs) ← readWhole cs
  let (fraction, cs) ← readFraction cs
  let (exponent, cs) ← readExponent cs
  if fraction.isEmpty && exponent.isEmpty then
    return (natural (Nat.ofDigitChars 10 whole 0), cs)
  else
    return (numeral (whole ++ fraction ++ exponent), cs)

/-- A number. -/
def readNumber : List Char → Option (Json × List Char)
  | '-' :: cs => do
    let (value, rest) ← readUnsigned cs
    match value with
    | natural n => return (numeral ('-' :: Nat.toDigits 10 n), rest)
    | numeral spelling => return (numeral ('-' :: spelling), rest)
    | _ => none
  | cs => readUnsigned cs

/-! ## Texts -/

/-- The value of a hexadecimal digit. -/
def hexValue? (c : Char) : Option Nat :=
  if c.isDigit then some (c.toNat - '0'.toNat)
  else if 'a' ≤ c ∧ c ≤ 'f' then some (c.toNat - 'a'.toNat + 10)
  else if 'A' ≤ c ∧ c ≤ 'F' then some (c.toNat - 'A'.toNat + 10)
  else none

/-- The unit of four hexadecimal digits. -/
def unitOfDigits? (a b c d : Char) : Option UInt16 := do
  let n := (((← hexValue? a) * 16 + (← hexValue? b)) * 16 + (← hexValue? c)) * 16 + (← hexValue? d)
  return UInt16.ofNat n

/-- The unit of an escape of one character. -/
def unitOfEscape? : Char → Option UInt16
  | '"' => some 0x22
  | '\\' => some 0x5c
  | '/' => some 0x2f
  | 'b' => some 0x08
  | 'f' => some 0x0c
  | 'n' => some 0x0a
  | 'r' => some 0x0d
  | 't' => some 0x09
  | _ => none

/-- The units up to the closing quote. A control character has to be escaped. -/
def readUnits : List Char → Option (List UInt16 × List Char)
  | [] => none
  | '"' :: rest => some ([], rest)
  | '\\' :: 'u' :: a :: b :: c :: d :: rest => do
    let unit ← unitOfDigits? a b c d
    let (units, rest) ← readUnits rest
    return (unit :: units, rest)
  | '\\' :: c :: rest => do
    let unit ← unitOfEscape? c
    let (units, rest) ← readUnits rest
    return (unit :: units, rest)
  | c :: rest =>
    if c.toNat < 0x20 then
      none
    else do
      let (units, rest) ← readUnits rest
      return (unitsOfChar c ++ units, rest)

/-! ## Values -/

/-- The rest of a text after the given characters. -/
def skipWord (word : String) (cs : List Char) : Option (List Char) :=
  let word := word.toList
  if word.isPrefixOf cs then some (cs.drop word.length) else none

mutual

/-- A value, after blanks. A value has no more parts than its text has characters, so that
the length of the text suffices as `fuel`. -/
def readValue (fuel : Nat) (cs : List Char) : Option (Json × List Char) :=
  match fuel with
  | 0 => none
  | fuel + 1 =>
    match skipBlanks cs with
    | 'n' :: rest => do return (null, ← skipWord "ull" rest)
    | 't' :: rest => do return (bool true, ← skipWord "rue" rest)
    | 'f' :: rest => do return (bool false, ← skipWord "alse" rest)
    | '"' :: rest => do
      let (units, rest) ← readUnits rest
      return (text units, rest)
    | '[' :: rest =>
      match skipBlanks rest with
      | ']' :: rest => return (list [], rest)
      | rest => do
        let (items, rest) ← readItems fuel rest
        return (list items, rest)
    | '{' :: rest =>
      match skipBlanks rest with
      | '}' :: rest => return (object [], rest)
      | rest => do
        let (fields, rest) ← readFields fuel rest
        return (object fields, rest)
    | cs => readNumber cs

/-- One or more items up to the closing bracket of a list. -/
def readItems (fuel : Nat) (cs : List Char) : Option (List Json × List Char) :=
  match fuel with
  | 0 => none
  | fuel + 1 => do
    let (item, cs) ← readValue fuel cs
    match skipBlanks cs with
    | ']' :: rest => return ([item], rest)
    | ',' :: rest =>
      let (items, rest) ← readItems fuel rest
      return (item :: items, rest)
    | _ => none

/-- One or more fields up to the closing bracket of an object. -/
def readFields (fuel : Nat) (cs : List Char) : Option (List (List UInt16 × Json) × List Char) :=
  match fuel with
  | 0 => none
  | fuel + 1 =>
    match skipBlanks cs with
    | '"' :: cs => do
      let (name, cs) ← readUnits cs
      match skipBlanks cs with
      | ':' :: cs =>
        let (value, cs) ← readValue fuel cs
        match skipBlanks cs with
        | '}' :: rest => return ([(name, value)], rest)
        | ',' :: rest =>
          let (fields, rest) ← readFields fuel rest
          return ((name, value) :: fields, rest)
        | _ => none
      | _ => none
    | _ => none

end

/-- The value that a whole text spells, with nothing but blanks around it. -/
def parse? (cs : List Char) : Option Json := do
  let (value, rest) ← readValue (cs.length + 1) cs
  if (skipBlanks rest).isEmpty then some value else none

end Garbling.Json
