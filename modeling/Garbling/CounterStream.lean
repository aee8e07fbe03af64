-- The keystream of a block cipher in counter mode, E(0) E(1) E(2) …, and
-- a reader that hands it out byte by byte in requests of any length. A
-- block is encrypted only when a request needs it.
import Garbling.Cipher.Aes

namespace Garbling

/-- A reader of the keystream: the next counter, and what is left of the block before. -/
structure CounterStream where
  cipher : Block → Block
  counter : Nat := 0
  rest : Bytes := []

namespace CounterStream

/-- The stream of AES-128 under a key, from its beginning. -/
def ofKey (key : Block) : CounterStream :=
  let keys := Cipher.RoundKeys.ofKey key
  { cipher := keys.encrypt }

/-- The bytes of `count` blocks of keystream, the first one under the counter `first`. -/
def blockBytes (cipher : Block → Block) (first count : Nat) : Bytes :=
  (List.range' first count).flatMap fun i => (cipher (BitVec.ofNat 128 i)).toBytes

/-- The next `n` bytes. -/
def read (s : CounterStream) (n : Nat) : Bytes × CounterStream :=
  let blocks := (n - s.rest.length + 15) / 16
  let bytes := s.rest ++ blockBytes s.cipher s.counter blocks
  (bytes.take n, { s with counter := s.counter + blocks, rest := bytes.drop n })

/-- The number made of the next `count` bytes. -/
def readNat (s : CounterStream) (count : Nat) : Nat × CounterStream :=
  let (bytes, s) := s.read count
  (ofLeBytes bytes, s)

/-- The next sixteen bytes as a block. -/
def readBlock (s : CounterStream) : Block × CounterStream :=
  let (bytes, s) := s.read Block.size
  (Block.ofBytes bytes, s)

/-- The next `n` blocks. -/
def readBlocks : Nat → CounterStream → List Block × CounterStream
  | 0, s => ([], s)
  | n + 1, s =>
    let (b, s) := s.readBlock
    let (bs, s) := readBlocks n s
    (b :: bs, s)

/-- The reader as text, which shows how many blocks it has encrypted and hides the key. -/
def describe (s : CounterStream) : String := "AesRng \x7b counter: " ++ toString s.counter ++ " \x7d"

/-! ## Lengths -/

@[simp] theorem length_blockBytes (cipher : Block → Block) (first count : Nat) :
    (blockBytes cipher first count).length = 16 * count := by
  simp only [blockBytes, List.length_flatMap, Block.length_toBytes, List.map_const',
    List.sum_replicate_nat, List.length_range', Block.size]
  omega

@[simp] theorem length_read (s : CounterStream) (n : Nat) : (s.read n).1.length = n := by
  simp only [read, List.length_take, List.length_append, length_blockBytes]
  omega

@[simp] theorem length_readBlocks (n : Nat) (s : CounterStream) :
    (readBlocks n s).1.length = n := by
  induction n generalizing s with
  | zero => rfl
  | succ n ih => simp [readBlocks, ih]

end CounterStream

end Garbling
