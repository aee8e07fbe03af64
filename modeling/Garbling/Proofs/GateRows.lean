-- The rows of a garbled table. The signals of two labels name the row
-- that was written for the bits which the labels stand for, whatever the
-- hash is, so no two rows collide.
import Garbling.GateTable
import Garbling.Proofs.KeyArray.Choice

namespace Garbling

theorem signal_labelFor {offset : Block} (h : offset.signal = true) (zero : Block) (bit : Bool) :
    (labelFor offset zero bit).signal = (zero.signal ^^ bit) := by
  cases bit <;> simp [labelFor, h]

/-- The labels of a wire with a Not gate are those of the wire that it reads, with the bits
exchanged. -/
theorem labelFor_xor_offset (offset zero : Block) (bit : Bool) :
    labelFor offset (zero ^^^ offset) (!bit) = labelFor offset zero bit := by
  cases bit
  · simp only [labelFor, Bool.not_false, if_true, BitVec.xor_assoc, BitVec.xor_self,
      BitVec.xor_zero, Bool.false_eq_true, if_false]
  · rfl

theorem labelFor_xor_labelFor (offset a b : Block) (x y : Bool) :
    labelFor offset a x ^^^ labelFor offset b y = labelFor offset (a ^^^ b) (x ^^ y) := by
  cases x <;> cases y <;> simp only [labelFor, Bool.false_eq_true, if_false, if_true,
    Bool.xor_false, Bool.xor_true, Bool.not_false, Bool.not_true]
  · ac_rfl
  · ac_rfl
  · rw [show a ^^^ offset ^^^ (b ^^^ offset) = a ^^^ b ^^^ (offset ^^^ offset) by ac_rfl]
    simp

namespace GateTable

/-- The number of a row is made of its two bits. -/
theorem flatMap_bitPairs (f : Bool → Bool → Block) :
    (bitPairs.flatMap fun (s, t) => (f s t).toBytes) =
      (List.range 4).flatMap fun i => (f (i.testBit 1) (i.testBit 0)).toBytes := rfl

/-- Each row of four blocks is found at its number. -/
theorem row?_bitPairs (f : Bool → Bool → Block) (s t : Bool) :
    row? (bitPairs.flatMap fun (s, t) => (f s t).toBytes) (2 * s.toNat + t.toNat) =
      some (f s t) := by
  have hlt : 2 * s.toNat + t.toNat < 4 := by cases s <;> cases t <;> decide
  have hbits : (2 * s.toNat + t.toNat).testBit 1 = s ∧ (2 * s.toNat + t.toNat).testBit 0 = t := by
    cases s <;> cases t <;> decide
  rw [row?, flatMap_bitPairs, slice?_flatMap_range (fun _ _ => Block.length_toBytes _) hlt,
    hbits.1, hbits.2, Option.map_some, Block.ofBytes_toBytes]

theorem length_garble (hash : PairHash) (gate : Nat) (op : Bool → Bool → Bool)
    (offset a b c : Block) : (garble hash gate op offset a b c).length = size := by
  simp only [garble, bitPairs, List.flatMap_cons, List.flatMap_nil, List.length_append,
    Block.length_toBytes, List.length_nil, size]
  omega

/-- Four rows make up a table. -/
theorem eq_flatMap_of_rows {f : Bool → Bool → Block} {table : Bytes} (hlen : table.length = size)
    (h : ∀ s t, row? table (2 * s.toNat + t.toNat) = some (f s t)) :
    table = bitPairs.flatMap fun (s, t) => (f s t).toBytes := by
  have hbits : ∀ i < 4, 2 * (i.testBit 1).toNat + (i.testBit 0).toNat = i := by decide
  rw [flatMap_bitPairs]
  refine eq_flatMap_range hlen fun i hi => ?_
  obtain ⟨bytes, hbytes, hrow⟩ := Option.map_eq_some_iff.1 (h (i.testBit 1) (i.testBit 0))
  rw [hbits i hi] at hbytes
  rw [hbytes, ← hrow, Block.toBytes_ofBytes (Bytes.length_of_slice? hbytes)]

theorem rowIndex_labelFor {offset : Block} (h : offset.signal = true) (a b : Block) (x y : Bool) :
    rowIndex (labelFor offset a x) (labelFor offset b y) =
      2 * (a.signal ^^ x).toNat + (b.signal ^^ y).toNat := by
  rw [rowIndex, signal_labelFor h, signal_labelFor h]

/-- What two labels open is in their row, encrypted. -/
theorem open?_eq_some_iff {hash : PairHash} {gate : Nat} {table : Bytes} {a b c : Block} :
    open? hash gate table a b = some c ↔
      row? table (rowIndex a b) = some (hash gate a b ^^^ c) := by
  have hxor : ∀ r k : Block, r ^^^ k = c ↔ r = k ^^^ c := by
    intro r k
    constructor
    · rintro rfl
      rw [BitVec.xor_comm r k, ← BitVec.xor_assoc, BitVec.xor_self, BitVec.zero_xor]
    · rintro rfl
      rw [BitVec.xor_comm k c, BitVec.xor_assoc, BitVec.xor_self, BitVec.xor_zero]
  cases hrow : row? table (rowIndex a b) <;> simp [open?, hrow, hxor]

/-- Two input labels open their row, which holds the label of the output bit. -/
theorem open?_garble {offset : Block} (h : offset.signal = true) (hash : PairHash) (gate : Nat)
    (op : Bool → Bool → Bool) (a b c : Block) (x y : Bool) :
    open? hash gate (garble hash gate op offset a b c) (labelFor offset a x) (labelFor offset b y) =
      some (labelFor offset c (op x y)) := by
  have hrow := row?_bitPairs
    (fun s t => entry hash gate op offset a b c (s ^^ a.signal) (t ^^ b.signal))
    (a.signal ^^ x) (b.signal ^^ y)
  have hx : ((a.signal ^^ x) ^^ a.signal) = x := by cases a.signal <;> cases x <;> rfl
  have hy : ((b.signal ^^ y) ^^ b.signal) = y := by cases b.signal <;> cases y <;> rfl
  simp only [hx, hy] at hrow
  rw [open?, rowIndex, signal_labelFor h, signal_labelFor h, garble, hrow, Option.map_some, entry]
  rw [show ∀ k l : Block, k ^^^ l ^^^ k = l ^^^ (k ^^^ k) from fun k l => by ac_rfl]
  simp

/-- An honest table passes the audit, which finds the label for 0. -/
theorem audit_garble {offset : Block} (h : offset.signal = true) (hash : PairHash) (gate : Nat)
    {op : Bool → Bool → Bool} (hop : op false false = false) (a b c : Block) :
    audit hash gate op offset (garble hash gate op offset a b c) a b = .ok c := by
  have hopen := open?_garble h hash gate op a b c
  have hfirst : open? hash gate (garble hash gate op offset a b c) a b = some c := by
    have := hopen false false
    rwa [hop] at this
  have hrows : forM bitPairs (fun (x, y) => do
      let label ← auditRange (open? hash gate (garble hash gate op offset a b c)
        (labelFor offset a x) (labelFor offset b y))
      if label ≠ labelFor offset c (op x y) then
        throw (Rejection.rowsDisagree gate)) = .ok () := by
    refine forM_eq_ok.2 fun (x, y) _ => ?_
    refine bind_eq_ok.2 ⟨_, auditRange_eq_ok.2 (hopen x y), ?_⟩
    simp
  unfold audit
  refine guard_eq_ok.2 ⟨by simp [length_garble], ?_⟩
  refine bind_eq_ok.2 ⟨c, auditRange_eq_ok.2 hfirst, ?_⟩
  exact bind_eq_ok.2 ⟨(), hrows, rfl⟩

/-- A table that passes the audit opens to the labels of the output bits, as an honest one. -/
theorem of_audit {hash : PairHash} {gate : Nat} {op : Bool → Bool → Bool} {offset zero : Block}
    {table : Bytes} {a b : Block} (h : audit hash gate op offset table a b = .ok zero) :
    table.length = size ∧ ∀ x y, open? hash gate table (labelFor offset a x) (labelFor offset b y) =
      some (labelFor offset zero (op x y)) := by
  unfold audit at h
  obtain ⟨hlen, h⟩ := guard_eq_ok.1 h
  obtain ⟨first, _, h⟩ := bind_eq_ok.1 h
  obtain ⟨_, hrows, h⟩ := bind_eq_ok.1 h
  rw [pure_eq_ok] at h
  subst h
  refine ⟨by simpa using hlen, ?_⟩
  intro x y
  have hmem : (x, y) ∈ bitPairs := by cases x <;> cases y <;> decide
  obtain ⟨label, hlabel, h⟩ := bind_eq_ok.1 (forM_eq_ok.1 hrows (x, y) hmem)
  obtain ⟨heq, _⟩ := guard_eq_ok.1 h
  rw [auditRange_eq_ok] at hlabel
  rw [hlabel]
  simpa using heq

/-- The audit accepts the honest table for the label that it gives, and no other: each of the
four rows is the one of two bits, and must hold what garbling writes for them. -/
theorem audit_eq_ok_iff {offset : Block} (h : offset.signal = true) {hash : PairHash} {gate : Nat}
    {op : Bool → Bool → Bool} (hop : op false false = false) {table : Bytes} {a b zero : Block} :
    audit hash gate op offset table a b = .ok zero ↔
      table = garble hash gate op offset a b zero := by
  constructor
  · intro haudit
    obtain ⟨hlen, hopen⟩ := of_audit haudit
    refine eq_flatMap_of_rows (f := fun s t =>
      entry hash gate op offset a b zero (s ^^ a.signal) (t ^^ b.signal)) hlen fun s t => ?_
    have hrow := open?_eq_some_iff.1 (hopen (s ^^ a.signal) (t ^^ b.signal))
    have hs : (a.signal ^^ (s ^^ a.signal)) = s := by cases a.signal <;> cases s <;> rfl
    have ht : (b.signal ^^ (t ^^ b.signal)) = t := by cases b.signal <;> cases t <;> rfl
    rwa [rowIndex_labelFor h, hs, ht] at hrow
  · rintro rfl
    exact audit_garble h hash gate hop a b zero

/-! ## Writing the rows -/

/-- The rows that are written for a gate, in the order of the bits: the entry of two bits goes
into the row that their labels name. -/
def writes (hash : PairHash) (gate : Nat) (op : Bool → Bool → Bool) (offset a b c : Block) :
    List (Nat × Bytes) :=
  bitPairs.map fun (x, y) => (rowIndex (labelFor offset a x) (labelFor offset b y),
    (entry hash gate op offset a b c x y).toBytes)

/-- The table that the rows make which are written into zeros, each to its place. -/
def write? (hash : PairHash) (gate : Nat) (op : Bool → Bool → Bool) (offset a b c : Block) :
    Option Bytes :=
  (writes hash gate op offset a b c).foldlM
    (fun table row => table.write? (row.1 * Block.size) Block.size row.2) (Bytes.zeros size)

/-- Copies of whole pieces over pieces that are there all succeed. -/
theorem foldlM_write? {n size : Nat} {parts : List (Nat × Bytes)} {f : Nat → Bytes}
    (h : ∀ j < n, (f j).length = size) (hparts : ∀ p ∈ parts, p.1 < n ∧ p.2.length = size) :
    parts.foldlM (fun bytes p => Bytes.write? bytes (p.1 * size) size p.2)
        ((List.range n).flatMap f) =
      some ((List.range n).flatMap
        (parts.foldl (fun f p j => if j = p.1 then p.2 else f j) f)) := by
  induction parts generalizing f with
  | nil => rfl
  | cons part parts ih =>
    obtain ⟨⟨hi, hlen⟩, hrest⟩ := List.forall_mem_cons.1 hparts
    rw [List.foldlM_cons, write?_flatMap_range h hi hlen]
    refine ih (fun j hj => ?_) hrest
    split
    · exact hlen
    · exact h j hj

/-- Every row is written once and within the table, so the rows make the table of the gate. -/
theorem write?_eq_some {offset : Block} (h : offset.signal = true) (hash : PairHash) (gate : Nat)
    (op : Bool → Bool → Bool) (a b c : Block) :
    write? hash gate op offset a b c = some (garble hash gate op offset a b c) := by
  have hzeros : ∀ j < 4, (Bytes.zeros Block.size).length = Block.size := fun _ _ =>
    Bytes.length_zeros _
  have hwrites : ∀ p ∈ writes hash gate op offset a b c, p.1 < 4 ∧ p.2.length = Block.size := by
    intro p hmem
    obtain ⟨⟨x, y⟩, _, rfl⟩ := List.mem_map.1 hmem
    refine ⟨?_, Block.length_toBytes _⟩
    dsimp only
    rw [rowIndex_labelFor h]
    cases a.signal ^^ x <;> cases b.signal ^^ y <;> decide
  have hblank : Bytes.zeros size = (List.range 4).flatMap fun _ => Bytes.zeros Block.size := rfl
  have hrows := flatMap_bitPairs fun s t =>
    entry hash gate op offset a b c (s ^^ a.signal) (t ^^ b.signal)
  rw [write?, hblank, foldlM_write? hzeros hwrites, garble, hrows, List.flatMap_def,
    List.flatMap_def]
  congr 2
  refine List.map_congr_left fun j hmem => ?_
  simp only [writes, bitPairs, rowIndex_labelFor h]
  have hj := List.mem_range.1 hmem
  match j with
  | 0 | 1 | 2 | 3 => cases a.signal <;> cases b.signal <;> rfl
  | j + 4 => omega

end GateTable

end Garbling
