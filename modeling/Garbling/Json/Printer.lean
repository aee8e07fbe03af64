-- JSON values as text without blanks.
import Garbling.Json.Value

namespace Garbling.Json

/-- The hexadecimal digits of a unit, four of them. -/
def hexDigits (u : UInt16) : List Char :=
  let n := u.toNat
  [n / 4096, n / 256 % 16, n / 16 % 16, n % 16].map Nat.digitChar

/-- A unit inside a text: itself if it is a printable ASCII character other than the quote
and the backslash, and an escape with four digits otherwise. -/
def printUnit (u : UInt16) : List Char :=
  if 0x20 ≤ u && u < 0x7f && u != 0x22 && u != 0x5c then
    [Char.ofNat u.toNat]
  else
    '\\' :: 'u' :: hexDigits u

/-- A text in quotes. -/
def printText (units : List UInt16) : List Char := '"' :: units.flatMap printUnit ++ ['"']

mutual

/-- The text of a value. -/
def print : Json → List Char
  | null => "null".toList
  | bool true => "true".toList
  | bool false => "false".toList
  | natural n => Nat.toDigits 10 n
  | numeral spelling => spelling
  | text units => printText units
  | list items => '[' :: printItems items
  | object fields => '{' :: printFields fields

/-- The items of a list up to its closing bracket. -/
def printItems : List Json → List Char
  | [] => [']']
  | [item] => print item ++ [']']
  | item :: items => print item ++ ',' :: printItems items

/-- The fields of an object up to its closing bracket. -/
def printFields : List (List UInt16 × Json) → List Char
  | [] => ['}']
  | [(name, value)] => printText name ++ ':' :: print value ++ ['}']
  | (name, value) :: fields => printText name ++ ':' :: print value ++ ',' :: printFields fields

end

end Garbling.Json
