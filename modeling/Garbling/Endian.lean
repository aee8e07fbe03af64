-- Natural numbers as bytes, with a fixed number of them: the least
-- significant byte first, or last. Reading undoes writing.
import Garbling.Bytes

namespace Garbling

/-- The `count` low bytes of `n`, least significant first. -/
def leBytes : Nat → Nat → Bytes
  | 0, _ => []
  | count + 1, n => UInt8.ofNat n :: leBytes count (n / 256)

/-- The number whose bytes these are, least significant first. -/
def ofLeBytes : Bytes → Nat
  | [] => 0
  | b :: bs => b.toNat + 256 * ofLeBytes bs

/-- The `count` low bytes of `n`, most significant first. -/
def beBytes (count n : Nat) : Bytes := (leBytes count n).reverse

/-! ## Reading and writing are inverse -/

@[simp] theorem length_leBytes (count n : Nat) : (leBytes count n).length = count := by
  induction count generalizing n with
  | zero => rfl
  | succ count ih => simp [leBytes, ih]

theorem ofLeBytes_leBytes (count n : Nat) :
    ofLeBytes (leBytes count n) = n % Nat.pow 256 count := by
  induction count generalizing n with
  | zero => exact (Nat.mod_one n).symm
  | succ count ih =>
    have hpow : Nat.pow 256 (count + 1) = 256 * Nat.pow 256 count := Nat.mul_comm _ 256
    rw [leBytes, ofLeBytes, ih, hpow, Nat.mod_mul]
    simp

/-- Numbers that fit into the bytes are told apart by them. -/
theorem leBytes_inj {count m n : Nat} (h : leBytes count m = leBytes count n)
    (hm : m < Nat.pow 256 count) (hn : n < Nat.pow 256 count) : m = n := by
  have hread := congrArg ofLeBytes h
  rwa [ofLeBytes_leBytes, ofLeBytes_leBytes, Nat.mod_eq_of_lt hm, Nat.mod_eq_of_lt hn] at hread

theorem ofLeBytes_lt (bs : Bytes) : ofLeBytes bs < Nat.pow 256 bs.length := by
  induction bs with
  | nil => exact Nat.one_pos
  | cons b bs ih =>
    have hb : b.toNat < 256 := b.toNat_lt
    have hpow : Nat.pow 256 (bs.length + 1) = 256 * Nat.pow 256 bs.length := Nat.mul_comm _ 256
    rw [ofLeBytes, List.length_cons, hpow]
    omega

theorem leBytes_ofLeBytes (bs : Bytes) : leBytes bs.length (ofLeBytes bs) = bs := by
  induction bs with
  | nil => rfl
  | cons b bs ih =>
    have hb : b.toNat < 256 := b.toNat_lt
    rw [List.length_cons, leBytes, ofLeBytes]
    congr 1
    · apply UInt8.toNat_inj.1
      simp
    · rw [Nat.add_mul_div_left _ _ (by decide), Nat.div_eq_of_lt hb, Nat.zero_add, ih]

@[simp] theorem length_beBytes (count n : Nat) : (beBytes count n).length = count := by
  simp [beBytes]

end Garbling
