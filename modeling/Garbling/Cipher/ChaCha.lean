-- The ChaCha20 stream of a 32-byte key: blocks of sixteen words under
-- the counters 0, 1, 2 … with an all-zero nonce. The stream is read in
-- whole words, and what a reader leaves of its last word is lost.
import Garbling.Cipher.QuarterRound

namespace Garbling.Cipher.ChaCha

/-- The rotations of a quarter round. -/
def rotations : Rotations := ⟨16, 12, 8, 7⟩

/-- A column round and a diagonal round. -/
def doubleRound (s : Words) : Words := quads.foldl (quarterRound rotations · · 0 0) s

/-- The words before the rounds: the constant, the key, the counter, a zero nonce. -/
def startWords (key : Bytes) (counter : Nat) : Words :=
  #v[0x61707865, 0x3320646e, 0x79622d32, 0x6b206574,
    wordAt key 0, wordAt key 1, wordAt key 2, wordAt key 3,
    wordAt key 4, wordAt key 5, wordAt key 6, wordAt key 7,
    UInt32.ofNat counter, UInt32.ofNat (counter >>> 32), 0, 0]

/-- The sixteen words of one block of the stream. -/
def blockWords (key : Bytes) (counter : Nat) : List UInt32 :=
  let start := startWords key counter
  let mixed := (List.range 10).foldl (fun s _ => doubleRound s) start
  List.zipWith (· + ·) mixed.toList start.toList

/-- The words of the stream from number `first` on, `count` of them. -/
def words (key : Bytes) (first count : Nat) : List UInt32 :=
  let blocks := (first % 16 + count + 15) / 16
  let whole := (List.range blocks).flatMap fun i => blockWords key (first / 16 + i)
  (whole.drop (first % 16)).take count

/-- A reader of the stream: its key and the number of words read so far. -/
structure Stream where
  key : Bytes
  wordsRead : Nat := 0

/-- The next `n` bytes, taken from as few whole words as hold them. -/
def Stream.read (s : Stream) (n : Nat) : Bytes × Stream :=
  let count := (n + 3) / 4
  (((words s.key s.wordsRead count).flatMap wordBytes).take n,
    { s with wordsRead := s.wordsRead + count })

/-! ## Lengths -/

@[simp] theorem length_blockWords (key : Bytes) (counter : Nat) :
    (blockWords key counter).length = 16 := by
  simp [blockWords]

theorem length_words (key : Bytes) (first count : Nat) :
    (words key first count).length = count := by
  simp only [words, List.length_take, List.length_drop, List.length_flatMap, length_blockWords,
    List.map_const', List.sum_replicate_nat, List.length_range]
  omega

@[simp] theorem Stream.length_read (s : Stream) (n : Nat) : (s.read n).1.length = n := by
  simp only [read, List.length_take, List.length_flatMap, wordBytes, length_leBytes,
    List.map_const', List.sum_replicate_nat, length_words]
  omega

end Garbling.Cipher.ChaCha
