-- JSON values. A text is kept as its UTF-16 units, because an escape may
-- name any unit, also one half of a surrogate pair without the other.

namespace Garbling

/-- A JSON value. An object keeps its fields in order and its repeated names. -/
inductive Json where
  | null
  | bool (b : Bool)
  /-- A number written with digits alone. -/
  | natural (n : Nat)
  /-- Any other number, as it is written. -/
  | numeral (spelling : List Char)
  | text (units : List UInt16)
  | list (items : List Json)
  | object (fields : List (List UInt16 × Json))

namespace Json

/-! ## UTF-16 -/

/-- The UTF-16 units of a character. -/
def unitsOfChar (c : Char) : List UInt16 :=
  if c.toNat < 0x10000 then
    [UInt16.ofNat c.toNat]
  else
    let rest := c.toNat - 0x10000
    [UInt16.ofNat (0xd800 + rest / 0x400), UInt16.ofNat (0xdc00 + rest % 0x400)]

/-- The UTF-16 units of a string. -/
def unitsOf (s : String) : List UInt16 := s.toList.flatMap unitsOfChar

/-- The first half of a surrogate pair. -/
def isHighHalf (u : UInt16) : Bool := 0xd800 ≤ u && u < 0xdc00

/-- The second half of a surrogate pair. -/
def isLowHalf (u : UInt16) : Bool := 0xdc00 ≤ u && u < 0xe000

/-- The halves of surrogate pairs stand together. -/
def wellFormed : List UInt16 → Bool
  | [] => true
  | [u] => !isHighHalf u && !isLowHalf u
  | u :: v :: rest =>
    if isHighHalf u then isLowHalf v && wellFormed rest else !isLowHalf u && wellFormed (v :: rest)

end Json

end Garbling
