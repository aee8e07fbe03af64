-- Binary formats: a way to write the values of a type as bytes together
-- with a way to read them back from the front of a byte string. Formats
-- are put together from smaller ones.
import Garbling.Endian

namespace Garbling

/-- Why bytes cannot be read. -/
inductive ReadError where
  /-- The bytes end before the value does. -/
  | endOfInput
  /-- The byte before an optional value is neither 0 nor 1. -/
  | optionTag (found : Nat)
  /-- The number of a gate's kind is not below 4. -/
  | gateKind (found : Nat)
deriving DecidableEq, Repr

def ReadError.message : ReadError → String
  | .endOfInput => "io error: unexpected end of file"
  | .optionTag found => s!"tag for enum is not valid, found {found}"
  | .gateKind found =>
    "invalid value: integer \x60" ++ toString found ++ "\x60, expected variant index 0 <= i < 4"

/-- A binary format of the values of a type. Reading gives the rest of the bytes too. -/
structure Format (α : Type) where
  write : α → Bytes
  read : Bytes → Except ReadError (α × Bytes)

namespace Format

variable {α β : Type}

/-- Reads a value from the front of some bytes; what follows it does not matter. -/
def decode (f : Format α) (bytes : Bytes) : Except ReadError α := (f.read bytes).map Prod.fst

/-! ## Formats -/

/-- A single byte. -/
def byte : Format UInt8 where
  write b := [b]
  read
    | [] => .error .endOfInput
    | b :: rest => .ok (b, rest)

/-- A number in `size` bytes, least significant first. -/
def natural (size : Nat) : Format Nat where
  write n := leBytes size n
  read bytes :=
    if size ≤ bytes.length then
      .ok (ofLeBytes (bytes.take size), bytes.drop size)
    else
      .error .endOfInput

/-- A number in eight bytes, for lengths and wires. -/
def word : Format Nat := natural 8

/-- Exactly `size` bytes, without their number. -/
def fixed (size : Nat) : Format Bytes where
  write bytes := bytes
  read bytes :=
    if size ≤ bytes.length then .ok (bytes.take size, bytes.drop size) else .error .endOfInput

/-- A byte that says whether there is a value, and then the value if there is one. -/
def optional (f : Format α) : Format (Option α) where
  write
    | none => [0]
    | some a => 1 :: f.write a
  read
    | [] => .error .endOfInput
    | tag :: rest =>
      if tag = 0 then
        .ok (none, rest)
      else if tag = 1 then
        (f.read rest).map fun (a, rest) => (some a, rest)
      else
        .error (.optionTag tag.toNat)

/-- Reads `count` values one after the other. -/
def readMany (f : Format α) : Nat → Bytes → Except ReadError (List α × Bytes)
  | 0, bytes => .ok ([], bytes)
  | count + 1, bytes => do
    let (a, bytes) ← f.read bytes
    let (as, bytes) ← readMany f count bytes
    return (a :: as, bytes)

/-- The number of values, and then the values. -/
def list (f : Format α) : Format (List α) where
  write as := word.write as.length ++ as.flatMap f.write
  read bytes := do
    let (count, bytes) ← word.read bytes
    f.readMany count bytes

/-- One value after another. -/
def pair (f : Format α) (g : Format β) : Format (α × β) where
  write := fun (a, b) => f.write a ++ g.write b
  read bytes := do
    let (a, bytes) ← f.read bytes
    let (b, bytes) ← g.read bytes
    return ((a, b), bytes)

/-- The same bytes for the values of another type. -/
def through (f : Format α) (toPart : β → α) (ofPart : α → β) : Format β where
  write b := f.write (toPart b)
  read bytes := (f.read bytes).map fun (a, rest) => (ofPart a, rest)

/-- A string of bytes with its length. -/
def bytes : Format Bytes := list byte

end Format

end Garbling
