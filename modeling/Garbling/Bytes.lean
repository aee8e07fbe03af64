-- Byte strings as lists, and the ways in which this library takes them
-- apart and writes into them: checked slices, splits and copies, equal
-- pieces, zero padding, masking.

namespace Garbling

/-- A byte string, first byte first. -/
abbrev Bytes := List UInt8

/-- The first `n` elements of a list and the others, if it has that many. -/
def splitAt? {α : Type} (n : Nat) (l : List α) : Option (List α × List α) :=
  if n ≤ l.length then some (l.take n, l.drop n) else none

theorem splitAt?_eq_some {α : Type} {n : Nat} {l : List α} (h : n ≤ l.length) :
    splitAt? n l = some (l.take n, l.drop n) := if_pos h

namespace Bytes

/-- The string of `n` zero bytes. -/
def zeros (n : Nat) : Bytes := List.replicate n 0

/-- Every byte is zero; the empty string is zero as well. -/
def isZero (bs : Bytes) : Bool := bs.all (· == 0)

/-- The `length` bytes from `start` on, if the string reaches that far. -/
def slice? (bs : Bytes) (start length : Nat) : Option Bytes :=
  if start + length ≤ bs.length then some ((bs.drop start).take length) else none

/-- The string with `part` copied over the `length` bytes from `start` on, if the string
reaches that far and `part` is just as long. -/
def write? (bs : Bytes) (start length : Nat) (part : Bytes) : Option Bytes :=
  if start + length ≤ bs.length ∧ part.length = length then
    some (bs.take start ++ part ++ bs.drop (start + length))
  else
    none

/-- The first `count` pieces of `size` bytes each, in order. -/
def pieces (size : Nat) : Nat → Bytes → List Bytes
  | 0, _ => []
  | count + 1, bs => bs.take size :: pieces size count (bs.drop size)

/-- The whole pieces of `size` bytes; a shorter rest at the end is dropped. -/
def wholePieces (size : Nat) (bs : Bytes) : List Bytes :=
  pieces size (bs.length / size) bs

/-- The bytes of `bs`, then zeros up to the length `size`. -/
def padTo (size : Nat) (bs : Bytes) : Bytes := bs ++ zeros (size - bs.length)

/-- Byte by byte exclusive or of a string with a mask; bytes past the end of the mask stay. -/
def masked : Bytes → Bytes → Bytes
  | [], _ => []
  | b :: bs, [] => b :: bs
  | b :: bs, m :: mask => (b ^^^ m) :: masked bs mask

/-! ## Lengths -/

@[simp] theorem length_zeros (n : Nat) : (zeros n).length = n := by
  simp [zeros]

theorem length_zeros_le (n : Nat) : (zeros n).length ≤ n := Nat.le_of_eq (length_zeros n)

@[simp] theorem isZero_zeros (n : Nat) : isZero (zeros n) = true := by
  simp [isZero, zeros]

theorem slice?_eq_some_iff {bs part : Bytes} {start length : Nat} :
    slice? bs start length = some part ↔
      start + length ≤ bs.length ∧ (bs.drop start).take length = part := by
  unfold slice?
  split
  · simp [*]
  · simp only [reduceCtorEq, false_iff, not_and]
    omega

theorem length_of_slice? {bs part : Bytes} {start length : Nat}
    (h : slice? bs start length = some part) : part.length = length := by
  obtain ⟨hle, rfl⟩ := slice?_eq_some_iff.1 h
  rw [List.length_take, List.length_drop]
  omega

/-- A copy takes the place of what was there, and leaves the bytes around it. -/
theorem write?_append {before old after part : Bytes} {start length : Nat}
    (hstart : before.length = start) (hold : old.length = length) (hpart : part.length = length) :
    write? (before ++ old ++ after) start length part = some (before ++ part ++ after) := by
  subst hstart hold
  have hend : before.length + old.length ≤ (before ++ old ++ after).length := by
    simp only [List.length_append]
    omega
  have hleft : (before ++ old ++ after).take before.length = before := by
    rw [List.append_assoc, List.take_left]
  have hright : (before ++ old ++ after).drop (before.length + old.length) = after := by
    rw [← List.length_append, List.drop_left]
  rw [write?, if_pos ⟨hend, hpart⟩, hleft, hright]

@[simp] theorem length_pieces (size count : Nat) (bs : Bytes) :
    (pieces size count bs).length = count := by
  induction count generalizing bs with
  | zero => rfl
  | succ count ih => simp [pieces, ih]

theorem length_of_mem_pieces {size count : Nat} {bs piece : Bytes}
    (hle : count * size ≤ bs.length) (h : piece ∈ pieces size count bs) : piece.length = size := by
  induction count generalizing bs with
  | zero => cases h
  | succ count ih =>
    rw [Nat.succ_mul] at hle
    rcases List.mem_cons.1 h with rfl | h
    · rw [List.length_take]
      omega
    · refine ih ?_ h
      rw [List.length_drop]
      omega

/-- No whole piece is cut short. -/
theorem length_of_mem_wholePieces {size : Nat} {bs piece : Bytes}
    (h : piece ∈ wholePieces size bs) : piece.length = size :=
  length_of_mem_pieces (Nat.div_mul_le_self _ _) h

theorem length_padTo {size : Nat} {bs : Bytes} (h : bs.length ≤ size) :
    (padTo size bs).length = size := by
  simp only [padTo, List.length_append, length_zeros]
  omega

/-- A string that is long enough needs no padding. -/
theorem padTo_self {size : Nat} {bs : Bytes} (h : bs.length = size) : padTo size bs = bs := by
  rw [padTo, h, Nat.sub_self]
  exact List.append_nil bs

theorem padTo_zeros (n : Nat) : padTo n (zeros n) = zeros n := padTo_self (length_zeros n)

@[simp] theorem length_masked (bs mask : Bytes) : (masked bs mask).length = bs.length := by
  fun_induction masked bs mask <;> simp [*]

/-- A mask that is applied twice changes nothing. -/
@[simp] theorem masked_masked (bs mask : Bytes) : masked (masked bs mask) mask = bs := by
  fun_induction masked bs mask with
  | case1 => rfl
  | case2 => rfl
  | case3 b bs m mask ih => rw [masked, ih, UInt8.xor_assoc, UInt8.xor_self, UInt8.xor_zero]

end Bytes

end Garbling
