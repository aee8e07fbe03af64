-- The multi-key scheme of blocks of any size: a Feistel network of four
-- rounds. The masks of the rounds are keyed BLAKE3 output, under a key
-- derived from all keys and the tweak; the network works with any masks.
import Garbling.Cipher.Blake3
import Garbling.MultiKey.Scheme

namespace Garbling.Scheme.Feistel

/-! ## The network -/

/-- The mask of a round: from the number of the round, the half it reads and the length
of the half it changes. -/
abbrev Mask := UInt8 → Bytes → Nat → Bytes

/-- One round. An even round masks the left half with the mask of the right half, an odd
round the right half with the mask of the left one. Of an odd length, the right half is
the longer one. -/
def round (mask : Mask) (number : UInt8) (block : Bytes) : Bytes :=
  let left := block.take (block.length / 2)
  let right := block.drop (block.length / 2)
  if number % 2 = 0 then
    Bytes.masked left (mask number right left.length) ++ right
  else
    left ++ Bytes.masked right (mask number left right.length)

/-- The numbers of the rounds. -/
def rounds : List UInt8 := [0, 1, 2, 3]

/-- Runs all rounds. -/
def permute (mask : Mask) (block : Bytes) : Bytes :=
  rounds.foldl (fun block number => round mask number block) block

/-- Runs all rounds backwards. -/
def unpermute (mask : Mask) (block : Bytes) : Bytes := rounds.foldr (round mask) block

@[simp] theorem length_round (mask : Mask) (number : UInt8) (block : Bytes) :
    (round mask number block).length = block.length := by
  unfold round
  split <;> simp <;> omega

/-- Every round is its own inverse. -/
@[simp] theorem round_round (mask : Mask) (number : UInt8) (block : Bytes) :
    round mask number (round mask number block) = block := by
  have hle : block.length / 2 ≤ block.length := Nat.div_le_self _ _
  rw [round, length_round]
  unfold round
  split <;> simp [Nat.min_eq_left hle]

@[simp] theorem unpermute_permute (mask : Mask) (block : Bytes) :
    unpermute mask (permute mask block) = block := by
  simp [permute, unpermute, rounds]

@[simp] theorem permute_unpermute (mask : Mask) (block : Bytes) :
    permute mask (unpermute mask block) = block := by
  simp [permute, unpermute, rounds]

@[simp] theorem length_permute (mask : Mask) (block : Bytes) :
    (permute mask block).length = block.length := by
  simp [permute, rounds]

@[simp] theorem length_unpermute (mask : Mask) (block : Bytes) :
    (unpermute mask block).length = block.length := by
  simp [unpermute, rounds]

/-! ## The round key -/

/-- What the round key is derived from: every key after its length, then the tweak. -/
def keyMaterial (keys : List Bytes) (tweak : Tweak) : Bytes :=
  (keys.flatMap fun key => leBytes 8 key.length ++ key) ++ tweak.toBytes

/-- The context in which round keys are derived. -/
def context : Bytes := "polygarble 2024 multi-key encryption".toUTF8.toList

/-- The round key, for blocks of at least two bytes. -/
def roundKey (cipherSize : Nat) (k : Keying) : Except SchemeError Bytes :=
  if cipherSize < 2 then
    .error (.cipherSize cipherSize)
  else
    match k.key, k.tweak with
    | none, _ => .error .keyNotSet
    | some _, none => .error .tweakNotSet
    | some key, some tweak => .ok (Cipher.Blake3.deriveKey context (keyMaterial key.keys tweak))

/-- The masks that each round key gives. -/
abbrev KeyedMask := Bytes → Mask

/-- The masks that are keyed BLAKE3 output for the number of the round and its source. -/
def blake3Mask : KeyedMask := fun key number source length =>
  Cipher.Blake3.keyed key (number :: source) length

/-! ## The scheme -/

/-- Accepts one or more keys, none of them empty. -/
def multiKey (keys : List Bytes) : Except SchemeError MultiKey :=
  if keys.isEmpty then
    .error .noKeys
  else
    match keys.find? (·.isEmpty) with
    | some key => .error (.keyLength key.length)
    | none => .ok ⟨keys⟩

def encrypt (masks : KeyedMask) (cipherSize : Nat) (k : Keying) (plaintext : Bytes) :
    Except SchemeError Bytes := do
  let block ← pad cipherSize plaintext
  let key ← roundKey cipherSize k
  return permute (masks key) block

def decrypt (masks : KeyedMask) (cipherSize : Nat) (k : Keying) (ciphertext : Bytes) :
    Except SchemeError Bytes := do
  checkCiphertext cipherSize ciphertext
  let key ← roundKey cipherSize k
  return unpermute (masks key) ciphertext

end Feistel

/-- The scheme of blocks of the given size with the given masks. -/
def feistelWith (masks : Feistel.KeyedMask) (cipherSize : Nat) : Scheme where
  cipherSize := cipherSize
  multiKey := Feistel.multiKey
  encrypt := Feistel.encrypt masks cipherSize
  decrypt := Feistel.decrypt masks cipherSize

/-- The scheme of blocks of the given size. -/
def feistel (cipherSize : Nat) : Scheme := feistelWith Feistel.blake3Mask cipherSize

end Garbling.Scheme
