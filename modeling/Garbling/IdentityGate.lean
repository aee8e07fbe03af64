-- Identity gates carry a wire from one domain of keys to another. A
-- table has one row for each bit: the output key, encrypted under the
-- input key, and then an encrypted block of zeros, the sentinel, by which
-- a key knows its row. The order of the rows does not show the bits.
import Garbling.MultiKey.Scheme
import Garbling.Rejection

namespace Garbling.IdentityGate

/-- The number of bytes of a table. -/
def tableSize (s : Scheme) : Nat := 4 * s.cipherSize

/-! ## The keying of a gate -/

/-- Keys the scheme with one input key at a gate, after whatever it was used for before. -/
def useKey (s : Scheme) (gate : UInt32) (key : Bytes) (k : Keying) : Except Error Keying := do
  let key ← (s.multiKey [key]).mapError Error.encryption
  return (k.setKey key).setTweak ⟨gate⟩

/-- The scheme's keying for one input key at a gate. -/
def keying (s : Scheme) (gate : UInt32) (key : Bytes) : Except Error Keying := useKey s gate key {}

/-- Every use of a key overwrites what the use before it has left in the scheme. So a gate is
always keyed as by a scheme that was never used, whatever gates came before it. -/
theorem useKey_eq_keying (s : Scheme) (gate : UInt32) (key : Bytes) (k : Keying) :
    useKey s gate key k = keying s gate key := rfl

/-! ## Making a table -/

/-- Encrypts into a block of the size that the scheme states. -/
def encryptBlock (s : Scheme) (k : Keying) (plaintext : Bytes) : Except Error Bytes := do
  let ciphertext ← (s.encrypt k plaintext).mapError Error.encryption
  if ciphertext.length = s.cipherSize then
    return ciphertext
  else
    throw (.encryption (.ciphertextLength s.cipherSize ciphertext.length))

/-- Encrypts into one of the four places of a table. -/
def encryptPart (s : Scheme) (k : Keying) (part : Nat) (plaintext table : Bytes) :
    Except Error Bytes := do
  let ciphertext ← encryptBlock s k plaintext
  inRange (table.write? (part * s.cipherSize) s.cipherSize ciphertext)

/-- Writes the row that carries an input key to an output key, as the second one of a table
if `second` says so. -/
def writeRow (s : Scheme) (gate : UInt32) (second : Bool) (inputKey outputKey table : Bytes) :
    Except Error Bytes := do
  let k ← keying s gate inputKey
  let table ← encryptPart s k (2 * second.toNat) outputKey table
  encryptPart s k (2 * second.toNat + 1) (Bytes.zeros s.cipherSize) table

/-- The table of a gate. The row of the key for 0 comes second if `zeroSecond` says so. -/
def table (s : Scheme) (gate : UInt32) (zeroSecond : Bool) (inputs outputs : Bytes × Bytes) :
    Except Error Bytes := do
  let table ← writeRow s gate zeroSecond inputs.1 outputs.1 (Bytes.zeros (tableSize s))
  writeRow s gate (!zeroSecond) inputs.2 outputs.2 table

/-! ## Reading a table -/

/-- One of the four ciphertexts of a table, decrypted. -/
def decryptPart (s : Scheme) (k : Keying) (table : Bytes) (part : Nat) : Except Error Bytes := do
  let ciphertext ← inRange (table.slice? (part * s.cipherSize) s.cipherSize)
  (s.decrypt k ciphertext).mapError Error.encryption

/-- The sentinel of a row decrypts to zeros. -/
def opens (s : Scheme) (k : Keying) (table : Bytes) (row : Nat) : Except Error Bool := do
  let sentinel ← decryptPart s k table (2 * row + 1)
  return sentinel.isZero

/-- Which of the two rows open. -/
def openedRows (s : Scheme) (k : Keying) (table : Bytes) : Except Error (Bool × Bool) := do
  let first ← opens s k table 0
  let second ← opens s k table 1
  return (first, second)

/-- The output key of a row, unless the bytes after it are not all zero. -/
def payload? (s : Scheme) (k : Keying) (table : Bytes) (row outputSize : Nat) :
    Except Error (Option Bytes) := do
  let plain ← decryptPart s k table (2 * row)
  if plain.length < outputSize then
    return none
  let (key, rest) ← inRange (splitAt? outputSize plain)
  return if Bytes.isZero rest then some key else none

/-- The output key for an input key, from the first row that it opens. -/
def compute (s : Scheme) (gate : UInt32) (table inputKey : Bytes) (outputSize : Nat) :
    Except Error Bytes := do
  if table.length ≠ tableSize s then
    throw (.tablesMismatch .identityTableSize)
  let k ← keying s gate inputKey
  let (first, second) ← openedRows s k table
  if !first && !second then
    throw (.invalidWireValue gate.toNat)
  match ← payload? s k table (if first then 0 else 1) outputSize with
  | some key => return key
  | none => throw (.invalidWireValue gate.toNat)

/-! ## Auditing a table -/

/-- The one row that an input key opens; true stands for the second one. -/
def auditRow (s : Scheme) (gate : UInt32) (k : Keying) (table : Bytes) :
    Except Rejection Bool := do
  let (first, second) ← (openedRows s k table).mapError Rejection.unreadable
  if first == second then
    throw (.rowsOpened gate.toNat)
  return second

/-- The output key in a row. -/
def auditPayload (s : Scheme) (gate : UInt32) (k : Keying) (table : Bytes) (second : Bool)
    (outputSize : Nat) : Except Rejection Bytes := do
  match ← (payload? s k table second.toNat outputSize).mapError Rejection.unreadable with
  | some key => return key
  | none => throw (.padding gate.toNat)

/-- Both output keys, if the table is an honest one for the two input keys: each of them
opens exactly one row, and not the same one. -/
def audit (s : Scheme) (gate : UInt32) (table : Bytes) (inputs : Bytes × Bytes)
    (outputSize : Nat) : Except Rejection (Bytes × Bytes) := do
  if table.length ≠ tableSize s then
    throw (.tableSize gate.toNat)
  let k0 ← (keying s gate inputs.1).mapError Rejection.unreadable
  let k1 ← (keying s gate inputs.2).mapError Rejection.unreadable
  let row0 ← auditRow s gate k0 table
  let row1 ← auditRow s gate k1 table
  if row0 == row1 then
    throw (.sameRow gate.toNat)
  let key0 ← auditPayload s gate k0 table row0 outputSize
  let key1 ← auditPayload s gate k1 table row1 outputSize
  return (key0, key1)

end Garbling.IdentityGate
