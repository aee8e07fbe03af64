-- A longer request begins with the bytes of a shorter one, for both
-- kinds of streams. What a stream gives after it was keyed is known, and
-- a seed of the right length always keys it.
import Garbling.Generator

namespace Garbling

/-! ## Counter mode -/

namespace CounterStream

theorem blockBytes_add (cipher : Block → Block) (first count more : Nat) :
    blockBytes cipher first (count + more) =
      blockBytes cipher first count ++ blockBytes cipher (first + count) more := by
  rw [blockBytes, blockBytes, blockBytes, ← List.range'_append_1, List.flatMap_append]

/-- A request is the beginning of any longer one. -/
theorem take_read (s : CounterStream) {n m : Nat} (h : n ≤ m) :
    (s.read m).1.take n = (s.read n).1 := by
  obtain ⟨more, hmore⟩ := Nat.exists_eq_add_of_le
    (show (n - s.rest.length + 15) / 16 ≤ (m - s.rest.length + 15) / 16 by omega)
  simp only [read]
  rw [List.take_take, Nat.min_eq_left h, hmore, blockBytes_add, ← List.append_assoc,
    List.take_append_of_le_length]
  simp only [List.length_append, length_blockBytes]
  omega

end CounterStream

/-! ## ChaCha20 -/

namespace Cipher.ChaCha

theorem length_blocks (key : Bytes) (first blocks : Nat) :
    ((List.range blocks).flatMap fun i => blockWords key (first + i)).length = 16 * blocks := by
  simp only [List.length_flatMap, length_blockWords, List.map_const', List.sum_replicate_nat,
    List.length_range]
  omega

theorem take_words (key : Bytes) (first : Nat) {count more : Nat} (h : count ≤ more) :
    (words key first more).take count = words key first count := by
  obtain ⟨extra, hextra⟩ := Nat.exists_eq_add_of_le
    (show (first % 16 + count + 15) / 16 ≤ (first % 16 + more + 15) / 16 by omega)
  have hlen := length_blocks key (first / 16) ((first % 16 + count + 15) / 16)
  simp only [words]
  rw [List.take_take, Nat.min_eq_left h, hextra, List.range_add, List.flatMap_append,
    List.drop_append_of_le_length (by omega), List.take_append_of_le_length]
  rw [List.length_drop]
  omega

theorem length_wordBytes (ws : List UInt32) : (ws.flatMap wordBytes).length = 4 * ws.length := by
  simp only [List.length_flatMap, wordBytes, length_leBytes, List.map_const',
    List.sum_replicate_nat]
  omega

/-- A request is the beginning of any longer one. -/
theorem Stream.take_read (s : Stream) {n m : Nat} (h : n ≤ m) :
    (s.read m).1.take n = (s.read n).1 := by
  have hwords := take_words s.key s.wordsRead (show (n + 3) / 4 ≤ (m + 3) / 4 by omega)
  have hsplit := List.take_append_drop ((n + 3) / 4) (words s.key s.wordsRead ((m + 3) / 4))
  rw [hwords] at hsplit
  simp only [read]
  rw [List.take_take, Nat.min_eq_left h, ← hsplit, List.flatMap_append,
    List.take_append_of_le_length]
  rw [length_wordBytes, length_words]
  omega

end Cipher.ChaCha

/-! ## Generators of these streams -/

namespace StreamKind

theorem take_read (kind : StreamKind) (reader : kind.Reader) {n m : Nat} (h : n ≤ m) :
    (kind.read reader m).1.take n = (kind.read reader n).1 := by
  cases kind with
  | aesCounter => exact CounterStream.take_read reader h
  | chaCha20 => exact Cipher.ChaCha.Stream.take_read reader h

end StreamKind

namespace StreamGenerator

variable {kind : StreamKind}

/-- A seed of the right length keys any generator of the kind, and no other seed does. -/
theorem rekey_eq (g : StreamGenerator kind) (seed : Bytes) :
    Generator.rekey g seed = if seed.length = kind.seedSize then .ok ⟨some (kind.start seed)⟩
      else .error (.seedLength kind.seedSize seed.length) := rfl

/-- A generator that was keyed answers every request. -/
theorem draw_eq (reader : kind.Reader) (n : Nat) :
    Generator.draw (⟨some reader⟩ : StreamGenerator kind) n =
      (.ok (kind.read reader n).1, ⟨some (kind.read reader n).2⟩) := rfl

end StreamGenerator

end Garbling
