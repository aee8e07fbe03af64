-- Sixteen 32-bit words and the quarter round that ChaCha20 and BLAKE3
-- share: additions, exclusive ors and rotations of four of the words.
import Garbling.Endian

namespace Garbling.Cipher

/-- Sixteen words of 32 bits. -/
abbrev Words := Vector UInt32 16

/-- The bytes of a word, least significant first. -/
def wordBytes (w : UInt32) : Bytes := leBytes 4 w.toNat

/-- The `i`-th word of a byte string; what lies past its end counts as zeros. -/
def wordAt (bs : Bytes) (i : Nat) : UInt32 :=
  UInt32.ofNat (ofLeBytes ((bs.drop (4 * i)).take 4))

/-- The first sixteen words of a byte string. -/
def Words.ofBytes (bs : Bytes) : Words := Vector.ofFn fun i => wordAt bs i

/-- Rotates a word to the left. -/
def rotate (w : UInt32) (n : UInt32) : UInt32 := (w <<< n) ||| (w >>> (32 - n))

/-- Four places among the sixteen words. -/
structure Quad where
  a : Fin 16
  b : Fin 16
  c : Fin 16
  d : Fin 16

/-- The columns and then the diagonals of the square of sixteen words. -/
def quads : List Quad :=
  [⟨0, 4, 8, 12⟩, ⟨1, 5, 9, 13⟩, ⟨2, 6, 10, 14⟩, ⟨3, 7, 11, 15⟩,
    ⟨0, 5, 10, 15⟩, ⟨1, 6, 11, 12⟩, ⟨2, 7, 8, 13⟩, ⟨3, 4, 9, 14⟩]

/-- The four rotations of a quarter round, in order. -/
structure Rotations where
  first : UInt32
  second : UInt32
  third : UInt32
  fourth : UInt32

/-- One quarter round on the words of a quad, which adds `x` and `y` on its way. -/
def quarterRound (r : Rotations) (s : Words) (q : Quad) (x y : UInt32) : Words :=
  let a := s[q.a] + s[q.b] + x
  let d := rotate (s[q.d] ^^^ a) r.first
  let c := s[q.c] + d
  let b := rotate (s[q.b] ^^^ c) r.second
  let a := a + b + y
  let d := rotate (d ^^^ a) r.third
  let c := c + d
  let b := rotate (b ^^^ c) r.fourth
  (((s.set q.a a).set q.b b).set q.c c).set q.d d

end Garbling.Cipher
