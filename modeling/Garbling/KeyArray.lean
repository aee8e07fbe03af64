-- Keys of many wires in one byte string, all of one size and without
-- separators. An array of single keys holds the key of wire 0, 1, 2 …;
-- an array of pairs holds the key for 0 and the key for 1 of each wire.
import Garbling.Error

namespace Garbling.KeyArray

/-- The key at a position of an array. -/
def keyAt? (size : Nat) (keys : Bytes) (position : Nat) : Option Bytes :=
  keys.slice? (position * size) size

/-- The key of a wire for a bit, in an array of pairs. -/
def bitKeyAt? (size : Nat) (pairs : Bytes) (wire : Nat) (bit : Bool) : Option Bytes :=
  keyAt? size pairs (2 * wire + bit.toNat)

/-- Refuses an array of another length than expected. -/
def checkLength (keys : Bytes) (expected : Nat) : Except Error Unit :=
  if keys.length = expected then .ok () else .error (.wrongKeySize expected keys.length)

/-- The keys for the bits of one party, where a byte other than zero is a one. The
positions are those of the party's wires among `wires` input wires. -/
def select (size wires : Nat) (bits pairs : Bytes) (positions : List Nat) : Except Error Bytes := do
  if bits.length ≠ positions.length then
    throw (.wrongInputSize positions.length bits.length)
  checkLength pairs (2 * wires * size)
  let keys ← (bits.zip positions).mapM fun (bit, wire) =>
    inRange (bitKeyAt? size pairs wire (bit != 0))
  return keys.flatten

/-- The key of the wire is one of its two recorded keys. -/
def checkRecorded (size : Nat) (keys pairs : Bytes) (wire : Nat) : Except Error Unit := do
  let key ← inRange (keyAt? size keys wire)
  let key0 ← inRange (bitKeyAt? size pairs wire false)
  let key1 ← inRange (bitKeyAt? size pairs wire true)
  if key = key0 ∨ key = key1 then
    return ()
  else
    throw (.cheatAttempt wire)

/-- Each of the `count` keys is one of the two recorded keys of its wire. -/
def checkAllRecorded (size count : Nat) (keys pairs : Bytes) : Except Error Unit := do
  checkLength keys (count * size)
  checkLength pairs (2 * count * size)
  (List.range count).forM (checkRecorded size keys pairs)

end Garbling.KeyArray
