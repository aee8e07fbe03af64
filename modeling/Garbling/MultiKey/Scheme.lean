-- Encryption under several keys at once. A scheme works on blocks of one
-- size; shorter plaintexts are padded with zeros, so that short keys can
-- be carried through larger blocks.
import Garbling.Endian

namespace Garbling

/-- The tweak of a gate, which separates the encryptions of different gates. -/
structure Tweak where
  gate : UInt32
deriving DecidableEq, Repr

/-- A tweak is sixteen bytes long: the number of its gate in the last four, most
significant byte first, and zeros before. -/
def Tweak.toBytes (t : Tweak) : Bytes := Bytes.zeros 12 ++ beBytes 4 t.gate.toNat

/-- The keys that one encryption uses together. -/
structure MultiKey where
  keys : List Bytes
deriving DecidableEq, Repr

/-- What a scheme has been given so far. -/
structure Keying where
  key : Option MultiKey := none
  tweak : Option Tweak := none
deriving DecidableEq, Repr

namespace Keying

/-- Sets the keys. -/
def setKey (k : Keying) (key : MultiKey) : Keying := { k with key := some key }

/-- Sets the tweak. -/
def setTweak (k : Keying) (tweak : Tweak) : Keying := { k with tweak := some tweak }

/-- With both set, nothing is left of what the scheme had been given before. -/
@[simp] theorem setTweak_setKey (k : Keying) (key : MultiKey) (tweak : Tweak) :
    (k.setKey key).setTweak tweak = ⟨some key, some tweak⟩ := rfl

end Keying

/-- Why a scheme refuses. -/
inductive SchemeError where
  | keyNotSet
  | tweakNotSet
  | keyLength (actual : Nat)
  | noKeys
  | cipherSize (actual : Nat)
  | plaintextTooLong (max actual : Nat)
  | ciphertextLength (expected actual : Nat)
deriving DecidableEq, Repr

def SchemeError.message : SchemeError → String
  | .keyNotSet => "no key was set for the encryption scheme"
  | .tweakNotSet => "no tweak was set for the encryption scheme"
  | .keyLength actual => s!"invalid key length {actual}"
  | .noKeys => "a multi-key needs at least one key"
  | .cipherSize actual => s!"invalid cipher size {actual}"
  | .plaintextTooLong max actual =>
    s!"plaintext of {actual} bytes exceeds the cipher size of {max} bytes"
  | .ciphertextLength expected actual =>
    s!"ciphertext of {actual} bytes, expected {expected} bytes"

/-- A symmetric encryption scheme with several keys. -/
structure Scheme where
  /-- The length of every ciphertext. -/
  cipherSize : Nat
  /-- Combines keys, if the scheme accepts their lengths. -/
  multiKey : List Bytes → Except SchemeError MultiKey
  encrypt : Keying → Bytes → Except SchemeError Bytes
  decrypt : Keying → Bytes → Except SchemeError Bytes

namespace Scheme

/-- The plaintext padded with zeros to a whole block. -/
def pad (cipherSize : Nat) (plaintext : Bytes) : Except SchemeError Bytes :=
  if plaintext.length ≤ cipherSize then
    .ok (plaintext.padTo cipherSize)
  else
    .error (.plaintextTooLong cipherSize plaintext.length)

/-- Refuses a ciphertext that is not exactly one block long. -/
def checkCiphertext (cipherSize : Nat) (ciphertext : Bytes) : Except SchemeError Unit :=
  if ciphertext.length = cipherSize then
    .ok ()
  else
    .error (.ciphertextLength cipherSize ciphertext.length)

/-- The same scheme with another statement of its cipher size. -/
def claiming (s : Scheme) (cipherSize : Nat) : Scheme := { s with cipherSize }

end Scheme

end Garbling
