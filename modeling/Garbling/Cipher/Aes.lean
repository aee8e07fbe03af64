-- The AES-128 block cipher. The state is four columns of four bytes; a
-- round substitutes bytes, shifts rows, mixes columns and adds a round
-- key. Decryption undoes these steps in reverse order.
import Garbling.Block
import Garbling.Cipher.Substitution

namespace Garbling.Cipher

/-! ## Columns -/

/-- One column of the state, top row first. -/
@[ext]
structure Column where
  top : UInt8
  second : UInt8
  third : UInt8
  bottom : UInt8
deriving DecidableEq, Inhabited

namespace Column

/-- Byte by byte exclusive or. -/
def add (x y : Column) : Column :=
  ⟨x.top ^^^ y.top, x.second ^^^ y.second, x.third ^^^ y.third, x.bottom ^^^ y.bottom⟩

/-- Applies `f` to every byte. -/
def map (f : UInt8 → UInt8) (x : Column) : Column :=
  ⟨f x.top, f x.second, f x.third, f x.bottom⟩

/-- Moves every byte one row up, the top one to the bottom. -/
def rotate (x : Column) : Column := ⟨x.second, x.third, x.bottom, x.top⟩

end Column

/-- What the highest bit of a byte turns into when the byte is doubled. -/
def carry (b : UInt8) : UInt8 := if b < 0x80 then 0 else 0x1b

/-- Doubling in the field of 256 elements with modulus x⁸ + x⁴ + x³ + x + 1. -/
def double (b : UInt8) : UInt8 := (b <<< 1) ^^^ carry b

namespace Column

/-- Multiplies a column by the circulant matrix with first row 2, 3, 1, 1. -/
def mix : Column → Column
  | ⟨a, b, c, d⟩ =>
    ⟨double (a ^^^ b) ^^^ b ^^^ c ^^^ d, double (b ^^^ c) ^^^ c ^^^ d ^^^ a,
      double (c ^^^ d) ^^^ d ^^^ a ^^^ b, double (d ^^^ a) ^^^ a ^^^ b ^^^ c⟩

/-- Undoes `mix`. The square of its matrix adds to each byte four times the sum of that
byte and the one two rows on, and is its own inverse. -/
def unmix : Column → Column
  | ⟨a, b, c, d⟩ =>
    let even := double (double (a ^^^ c))
    let odd := double (double (b ^^^ d))
    mix ⟨a ^^^ even, b ^^^ odd, c ^^^ even, d ^^^ odd⟩

end Column

/-! ## The state -/

/-- The state of the cipher: four columns. -/
@[ext]
structure State where
  c0 : Column
  c1 : Column
  c2 : Column
  c3 : Column
deriving DecidableEq, Inhabited

namespace State

/-- The columns of a block, filled downwards from its first byte. -/
def ofBlock (b : Block) : State :=
  ⟨⟨b.byte 0, b.byte 1, b.byte 2, b.byte 3⟩, ⟨b.byte 4, b.byte 5, b.byte 6, b.byte 7⟩,
    ⟨b.byte 8, b.byte 9, b.byte 10, b.byte 11⟩, ⟨b.byte 12, b.byte 13, b.byte 14, b.byte 15⟩⟩

/-- The sixteen bytes of the state, column by column. -/
def toBytes (s : State) : Bytes :=
  [s.c0.top, s.c0.second, s.c0.third, s.c0.bottom, s.c1.top, s.c1.second, s.c1.third, s.c1.bottom,
    s.c2.top, s.c2.second, s.c2.third, s.c2.bottom, s.c3.top, s.c3.second, s.c3.third, s.c3.bottom]

/-- The block that holds the state. -/
def toBlock (s : State) : Block := Block.ofBytes s.toBytes

/-- Column by column exclusive or. -/
def add (x y : State) : State := ⟨x.c0.add y.c0, x.c1.add y.c1, x.c2.add y.c2, x.c3.add y.c3⟩

/-- Applies `f` to every byte. -/
def map (f : UInt8 → UInt8) (x : State) : State := ⟨x.c0.map f, x.c1.map f, x.c2.map f, x.c3.map f⟩

/-- Applies `f` to every column. -/
def mapColumns (f : Column → Column) (x : State) : State := ⟨f x.c0, f x.c1, f x.c2, f x.c3⟩

/-- Shifts row `r` by `r` columns to the left. -/
def shiftRows (x : State) : State :=
  ⟨⟨x.c0.top, x.c1.second, x.c2.third, x.c3.bottom⟩, ⟨x.c1.top, x.c2.second, x.c3.third, x.c0.bottom⟩,
    ⟨x.c2.top, x.c3.second, x.c0.third, x.c1.bottom⟩, ⟨x.c3.top, x.c0.second, x.c1.third, x.c2.bottom⟩⟩

/-- Shifts row `r` by `r` columns to the right. -/
def unshiftRows (x : State) : State :=
  ⟨⟨x.c0.top, x.c3.second, x.c2.third, x.c1.bottom⟩, ⟨x.c1.top, x.c0.second, x.c3.third, x.c2.bottom⟩,
    ⟨x.c2.top, x.c1.second, x.c0.third, x.c3.bottom⟩, ⟨x.c3.top, x.c2.second, x.c1.third, x.c0.bottom⟩⟩

end State

/-! ## Round keys -/

/-- The keys added before the first round, in the nine full rounds, and in the last one. -/
structure RoundKeys where
  first : State
  middle : List State
  last : State

/-- The round key that follows `k`, with the round's constant. -/
def nextKey (constant : UInt8) (k : State) : State :=
  let c0 := k.c0.add ((k.c3.rotate.map substitute).add ⟨constant, 0, 0, 0⟩)
  let c1 := k.c1.add c0
  let c2 := k.c2.add c1
  ⟨c0, c1, c2, k.c3.add c2⟩

/-- The `n` round keys after `k`, and the one after those. -/
def keysAfter : Nat → UInt8 → State → List State × State
  | 0, constant, k => ([], nextKey constant k)
  | n + 1, constant, k =>
    let next := nextKey constant k
    let (middle, last) := keysAfter n (double constant) next
    (next :: middle, last)

/-- The eleven round keys of a key. -/
def RoundKeys.ofKey (key : Block) : RoundKeys :=
  let first := State.ofBlock key
  let (middle, last) := keysAfter 9 1 first
  ⟨first, middle, last⟩

/-! ## The cipher -/

/-- A full round under the key `k`. -/
def round (s k : State) : State := ((s.map substitute).shiftRows.mapColumns Column.mix).add k

/-- Undoes `round`. -/
def unround (k s : State) : State :=
  ((s.add k).mapColumns Column.unmix).unshiftRows.map unsubstitute

namespace RoundKeys

/-- Encrypts one block. -/
def encrypt (ks : RoundKeys) (b : Block) : Block :=
  let s := ks.middle.foldl round ((State.ofBlock b).add ks.first)
  ((s.map substitute).shiftRows.add ks.last).toBlock

/-- Decrypts one block. -/
def decrypt (ks : RoundKeys) (b : Block) : Block :=
  let s := ((State.ofBlock b).add ks.last).unshiftRows.map unsubstitute
  ((ks.middle.foldr unround s).add ks.first).toBlock

end RoundKeys

/-! ## Decryption undoes encryption -/

theorem xor_xor_self_left (a b : UInt8) : a ^^^ (a ^^^ b) = b := by
  rw [← UInt8.xor_assoc]
  simp

theorem carry_eq (b : UInt8) : carry b = if b.toBitVec.msb then 0x1b else 0 := by
  have h : b < 0x80 ↔ b.toBitVec.msb = false := by
    rw [UInt8.lt_iff_toBitVec_lt, BitVec.msb_eq_decide, BitVec.lt_def]
    simp
  unfold carry
  cases hb : b.toBitVec.msb <;> simp [h, hb]

theorem carry_xor (a b : UInt8) : carry (a ^^^ b) = carry a ^^^ carry b := by
  rw [carry_eq, carry_eq, carry_eq, UInt8.toBitVec_xor, BitVec.msb_xor]
  cases a.toBitVec.msb <;> cases b.toBitVec.msb <;> rfl

theorem shiftLeft_one_xor (a b : UInt8) : (a ^^^ b) <<< 1 = (a <<< 1) ^^^ (b <<< 1) := by
  apply UInt8.toBitVec_inj.1
  simp [BitVec.shiftLeft_xor_distrib]

theorem double_xor (a b : UInt8) : double (a ^^^ b) = double a ^^^ double b := by
  rw [double, carry_xor, shiftLeft_one_xor, double, double]
  ac_rfl

namespace Column

@[simp] theorem unmix_mix (x : Column) : x.mix.unmix = x := by
  obtain ⟨a, b, c, d⟩ := x
  simp only [mix, unmix, double_xor, Column.mk.injEq]
  refine ⟨?_, ?_, ?_, ?_⟩ <;> ac_nf <;>
    simp only [xor_xor_self_left, UInt8.xor_self, UInt8.xor_zero]

@[simp] theorem mix_unmix (x : Column) : x.unmix.mix = x := by
  obtain ⟨a, b, c, d⟩ := x
  simp only [mix, unmix, double_xor, Column.mk.injEq]
  refine ⟨?_, ?_, ?_, ?_⟩ <;> ac_nf <;>
    simp only [xor_xor_self_left, UInt8.xor_self, UInt8.xor_zero]

@[simp] theorem add_add (x k : Column) : (x.add k).add k = x := by
  simp only [add, UInt8.xor_assoc, UInt8.xor_self, UInt8.xor_zero]

end Column

namespace State

@[simp] theorem add_add (s k : State) : (s.add k).add k = s := by
  simp [add]

@[simp] theorem unshiftRows_shiftRows (s : State) : s.shiftRows.unshiftRows = s := rfl

@[simp] theorem shiftRows_unshiftRows (s : State) : s.unshiftRows.shiftRows = s := rfl

@[simp] theorem map_map (f g : UInt8 → UInt8) (s : State) :
    (s.map f).map g = s.map fun b => g (f b) := rfl

@[simp] theorem map_self (s : State) : s.map (fun b => b) = s := rfl

@[simp] theorem mapColumns_mapColumns (f g : Column → Column) (s : State) :
    (s.mapColumns f).mapColumns g = s.mapColumns fun x => g (f x) := rfl

@[simp] theorem mapColumns_self (s : State) : s.mapColumns (fun x => x) = s := rfl

theorem toBytes_injective {s t : State} (h : s.toBytes = t.toBytes) : s = t := by
  simp only [toBytes, List.cons.injEq] at h
  simp_all [State.ext_iff, Column.ext_iff]

theorem toBytes_ofBlock (b : Block) : (ofBlock b).toBytes = b.toBytes := by
  simp [toBytes, ofBlock, Block.toBytes, Block.size, leBytes, Block.byte,
    Nat.shiftRight_eq_div_pow, Nat.div_div_eq_div_mul]

@[simp] theorem toBlock_ofBlock (b : Block) : (ofBlock b).toBlock = b := by
  rw [toBlock, toBytes_ofBlock, Block.ofBytes_toBytes]

@[simp] theorem ofBlock_toBlock (s : State) : ofBlock s.toBlock = s :=
  toBytes_injective (by rw [toBytes_ofBlock, toBlock, Block.toBytes_ofBytes rfl])

end State

@[simp] theorem unround_round (s k : State) : unround k (round s k) = s := by
  simp [unround, round]

@[simp] theorem round_unround (s k : State) : round (unround k s) k = s := by
  simp [unround, round]

theorem foldr_unround_foldl_round (keys : List State) (s : State) :
    keys.foldr unround (keys.foldl round s) = s := by
  induction keys generalizing s with
  | nil => rfl
  | cons k keys ih => simp [ih]

theorem foldl_round_foldr_unround (keys : List State) (s : State) :
    keys.foldl round (keys.foldr unround s) = s := by
  induction keys generalizing s with
  | nil => rfl
  | cons k keys ih => simp [ih]

namespace RoundKeys

/-- Whatever the round keys are, decryption undoes encryption. -/
@[simp] theorem decrypt_encrypt (ks : RoundKeys) (b : Block) : ks.decrypt (ks.encrypt b) = b := by
  simp [encrypt, decrypt, foldr_unround_foldl_round]

@[simp] theorem encrypt_decrypt (ks : RoundKeys) (b : Block) : ks.encrypt (ks.decrypt b) = b := by
  simp [encrypt, decrypt, foldl_round_foldr_unround]

end RoundKeys

end Garbling.Cipher
