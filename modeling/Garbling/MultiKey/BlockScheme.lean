-- The multi-key scheme of sixteen-byte blocks: AES-128 under the sum of
-- the hashes of all keys, hashed with the tweak.
import Garbling.LabelHash
import Garbling.MultiKey.Scheme

namespace Garbling

/-- The exclusive or of the hashes of all keys under the tweak. -/
def sumOfHashes (hash : Block → Block → Block) (tweak : Block) (keys : List Block) : Block :=
  keys.foldl (fun sum key => sum ^^^ hash tweak key) 0

namespace MultiKey

/-- The keys that are one block long. -/
def blocks (m : MultiKey) : List Block := m.keys.filterMap fun k => (Block.decode k).toOption

end MultiKey

namespace Scheme.BlockScheme

/-- Accepts one or more keys of sixteen bytes. -/
def multiKey (keys : List Bytes) : Except SchemeError MultiKey :=
  if keys.isEmpty then
    .error .noKeys
  else
    match keys.find? (·.length ≠ Block.size) with
    | some key => .error (.keyLength key.length)
    | none => .ok ⟨keys⟩

/-- The cipher that the keys and the tweak select. -/
def cipher (k : Keying) : Except SchemeError Cipher.RoundKeys :=
  match k.key, k.tweak with
  | none, _ => .error .keyNotSet
  | some _, none => .error .tweakNotSet
  | some key, some tweak =>
    .ok (.ofKey (sumOfHashes fixedHash (Block.ofBytes tweak.toBytes) key.blocks))

def encrypt (k : Keying) (plaintext : Bytes) : Except SchemeError Bytes := do
  let cipher ← cipher k
  let block ← pad Block.size plaintext
  return (cipher.encrypt (Block.ofBytes block)).toBytes

def decrypt (k : Keying) (ciphertext : Bytes) : Except SchemeError Bytes := do
  checkCiphertext Block.size ciphertext
  let cipher ← cipher k
  return (cipher.decrypt (Block.ofBytes ciphertext)).toBytes

end Scheme.BlockScheme

/-- The scheme of sixteen-byte blocks. -/
def Scheme.block : Scheme where
  cipherSize := Block.size
  multiKey := BlockScheme.multiKey
  encrypt := BlockScheme.encrypt
  decrypt := BlockScheme.decrypt

end Garbling
