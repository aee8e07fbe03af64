-- Pseudorandom generators that are keyed by a seed and then asked for
-- bytes. A failed request still leaves a generator behind, because a
-- generator may count its requests.
import Garbling.CounterStream
import Garbling.Cipher.ChaCha

namespace Garbling

/-- Why a generator cannot be keyed or cannot answer. -/
inductive GeneratorError where
  /-- The seed does not have the length of this generator's seeds. -/
  | seedLength (expected actual : Nat)
  /-- No seed was given yet. -/
  | unkeyed
deriving DecidableEq, Repr

def GeneratorError.message : GeneratorError → String
  | .seedLength expected actual => s!"seed of {actual} bytes is invalid, expected {expected} bytes"
  | .unkeyed => "no seed was set for the PRG"

/-- A generator of the type `G`: a new seed restarts its stream from the beginning, and a
request that succeeds gives as many bytes as it asked for. -/
class Generator (G : Type) where
  rekey : G → Bytes → Except GeneratorError G
  draw : G → Nat → Except GeneratorError Bytes × G
  length_of_draw : ∀ g n bytes, (draw g n).1 = .ok bytes → bytes.length = n

/-! ## The two streams -/

/-- The streams that a seed can start. -/
inductive StreamKind where
  /-- AES-128 in counter mode. -/
  | aesCounter
  /-- ChaCha20, read in whole words. -/
  | chaCha20
deriving DecidableEq, Repr

namespace StreamKind

/-- A reader of a stream of the kind. -/
def Reader : StreamKind → Type
  | .aesCounter => CounterStream
  | .chaCha20 => Cipher.ChaCha.Stream

/-- The length of a seed. -/
def seedSize : StreamKind → Nat
  | .aesCounter => 16
  | .chaCha20 => 32

/-- The stream of a seed, from its beginning. -/
def start : (kind : StreamKind) → Bytes → kind.Reader
  | .aesCounter, seed => CounterStream.ofKey (Block.ofBytes seed)
  | .chaCha20, seed => { key := seed : Cipher.ChaCha.Stream }

/-- The next `n` bytes of a stream. -/
def read : (kind : StreamKind) → kind.Reader → Nat → Bytes × kind.Reader
  | .aesCounter => CounterStream.read
  | .chaCha20 => Cipher.ChaCha.Stream.read

theorem length_read (kind : StreamKind) (reader : kind.Reader) (n : Nat) :
    (kind.read reader n).1.length = n := by
  cases kind
  · exact CounterStream.length_read reader n
  · exact Cipher.ChaCha.Stream.length_read reader n

end StreamKind

/-- A generator that reads the stream of its last seed. -/
structure StreamGenerator (kind : StreamKind) where
  reader : Option kind.Reader := none

namespace StreamGenerator

variable {kind : StreamKind}

/-- Starts the stream of the seed, which must have the right length. -/
def rekey (_ : StreamGenerator kind) (seed : Bytes) :
    Except GeneratorError (StreamGenerator kind) :=
  if seed.length = kind.seedSize then
    .ok ⟨some (kind.start seed)⟩
  else
    .error (.seedLength kind.seedSize seed.length)

/-- The next `n` bytes, once there is a stream. -/
def draw (g : StreamGenerator kind) (n : Nat) :
    Except GeneratorError Bytes × StreamGenerator kind :=
  match g.reader with
  | none => (.error .unkeyed, g)
  | some reader =>
    let (bytes, reader) := kind.read reader n
    (.ok bytes, ⟨some reader⟩)

instance : Generator (StreamGenerator kind) where
  rekey := rekey
  draw := draw
  length_of_draw g n bytes h := by
    unfold draw at h
    split at h
    · cases h
    · cases h
      exact kind.length_read _ _

end StreamGenerator

/-! ## A limited generator -/

/-- A generator that answers a number of requests and then behaves as if it were unkeyed.
A failed request counts too, and a new seed does not restore the number. -/
structure Metered (G : Type) where
  source : G
  left : Option Nat := none

namespace Metered

variable {G : Type} [Generator G]

def rekey (m : Metered G) (seed : Bytes) : Except GeneratorError (Metered G) :=
  (Generator.rekey m.source seed).map fun source => { m with source }

def draw (m : Metered G) (n : Nat) : Except GeneratorError Bytes × Metered G :=
  if m.left = some 0 then
    (.error .unkeyed, m)
  else
    let (answer, source) := Generator.draw m.source n
    (answer, ⟨source, m.left.map (· - 1)⟩)

instance : Generator (Metered G) where
  rekey := rekey
  draw := draw
  length_of_draw m n bytes h := by
    unfold draw at h
    split at h
    · cases h
    · exact Generator.length_of_draw _ _ _ h

end Metered

end Garbling
