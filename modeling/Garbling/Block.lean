-- The 128-bit block: the cipher's block and the label of a wire. Its
-- sixteen bytes are the bytes of a number, least significant first, and
-- its lowest bit is the signal of a label.
import Garbling.Endian

namespace Garbling

/-- A block of 128 bits. -/
abbrev Block := BitVec 128

/-- The fault of a byte string that is not exactly one block long. -/
structure WrongLength where
deriving DecidableEq, Repr

namespace WrongLength

def message (_ : WrongLength) : String := "slice must have length of 16"

end WrongLength

namespace Block

/-- The number of bytes of a block. -/
def size : Nat := 16

/-- The bytes of a block, least significant first. -/
def toBytes (b : Block) : Bytes := leBytes size b.toNat

/-- The block with these bytes; bytes past the sixteenth do not count. -/
def ofBytes (bs : Bytes) : Block := BitVec.ofNat 128 (ofLeBytes bs)

/-- The block with exactly these sixteen bytes. -/
def decode (bs : Bytes) : Except WrongLength Block :=
  if bs.length = size then .ok (ofBytes bs) else .error ⟨⟩

/-- The block in which every byte is `b`. -/
def splat (b : UInt8) : Block := ofBytes (List.replicate size b)

/-- The `i`-th byte. -/
def byte (b : Block) (i : Nat) : UInt8 := UInt8.ofNat (b.toNat >>> (8 * i))

/-- The lowest bit, which a label shows to its evaluator. -/
def signal (b : Block) : Bool := b.getLsbD 0

/-- The block with its lowest bit raised. -/
def withSignal (b : Block) : Block := b ||| 1#128

/-- The blocks that a byte string holds; a rest at the end is dropped. -/
def many (bs : Bytes) : List Block := (bs.wholePieces size).map ofBytes

/-- The lower-case digit of a number below sixteen. -/
def hexDigit (n : Nat) : Char := Nat.digitChar n

/-- The block as text: thirty-two hexadecimal digits, first byte first. -/
def describe (b : Block) : String :=
  let digits := b.toBytes.flatMap fun x => [hexDigit (x.toNat / 16), hexDigit (x.toNat % 16)]
  "Block(" ++ String.ofList digits ++ ")"

/-! ## Bytes and back -/

@[simp] theorem length_toBytes (b : Block) : b.toBytes.length = size := by
  simp [toBytes]

@[simp] theorem ofBytes_toBytes (b : Block) : ofBytes b.toBytes = b := by
  apply BitVec.eq_of_toNat_eq
  rw [ofBytes, toBytes, ofLeBytes_leBytes, BitVec.toNat_ofNat, Nat.mod_mod_of_dvd]
  · exact Nat.mod_eq_of_lt b.isLt
  · decide

theorem toBytes_ofBytes {bs : Bytes} (h : bs.length = size) : (ofBytes bs).toBytes = bs := by
  have hlt : ofLeBytes bs < 2 ^ 128 := by
    have := ofLeBytes_lt bs
    rwa [h] at this
  rw [toBytes, ofBytes, BitVec.toNat_ofNat, Nat.mod_eq_of_lt hlt, ← h, leBytes_ofLeBytes]

theorem toBytes_injective {a b : Block} (h : a.toBytes = b.toBytes) : a = b := by
  rw [← ofBytes_toBytes a, h, ofBytes_toBytes]

@[simp] theorem decode_toBytes (b : Block) : decode b.toBytes = .ok b := by
  simp [decode]

/-! ## The signal -/

@[simp] theorem signal_withSignal (b : Block) : b.withSignal.signal = true := by
  simp [signal, withSignal]

@[simp] theorem signal_xor (a b : Block) : signal (a ^^^ b) = (signal a ^^ signal b) := by
  simp [signal]

end Block

end Garbling
