-- An identity table with one byte changed. In a sentinel, the key of the
-- row does not open it any more. In a payload, the rows open as before,
-- and the key of the row finds another output key in it, while the other
-- key finds its own.
import Garbling.Proofs.Damage
import Garbling.Proofs.IdentityTables

namespace Garbling.IdentityGate

variable {s : Scheme} {gate : UInt32} {table table' : Bytes} {k : Keying}

/-! ## One key and two tables -/

section

variable {outputSize : Nat} {key output output' : Bytes} {second second' : Bool}

/-- What a key finds in a row does not depend on the other parts. -/
theorem payload?_congr {row : Nat} (h : part? s table' (2 * row) = part? s table (2 * row)) :
    payload? s k table' row outputSize = payload? s k table row outputSize := by
  unfold part? at h
  rw [payload?_eq, payload?_eq, decryptPart, decryptPart, h]

/-- In two tables where a key opens the same row, that row has the same sentinel, and it holds
the same output key if and only if it has the same payload. -/
theorem Opens.same_row (law : s.Lawful) (h : Opens s gate table outputSize key second output)
    (h' : Opens s gate table' outputSize key second output') :
    part? s table' (2 * second.toNat + 1) = part? s table (2 * second.toNat + 1) ∧
      (output' = output ↔
        part? s table' (2 * second.toNat) = part? s table (2 * second.toNat)) := by
  obtain ⟨k, hk, hopened, hpayload⟩ := h
  obtain ⟨k', hk', hopened', hpayload'⟩ := h'
  rw [hk, Except.ok.injEq] at hk'
  subst hk'
  have law := law.under k
  constructor
  · obtain ⟨sentinel, hpart, hzeros⟩ := sentinel_of_opens law (opens_of_openedRows hopened).1
    obtain ⟨sentinel', hpart', hzeros'⟩ := sentinel_of_opens law (opens_of_openedRows hopened').1
    rw [hzeros, Except.ok.injEq] at hzeros'
    rw [hpart, hpart', hzeros']
  · constructor
    · rintro rfl
      obtain ⟨payload, hpart, hcipher⟩ := part?_of_payload? law hpayload
      obtain ⟨payload', hpart', hcipher'⟩ := part?_of_payload? law hpayload'
      rw [hcipher, Except.ok.injEq] at hcipher'
      rw [hpart, hpart', hcipher']
    · intro hsame
      rw [payload?_congr hsame, hpayload, Except.ok.injEq, Option.some.injEq] at hpayload'
      exact hpayload'.symm

/-- A key opens a row of another table only if its own table has another sentinel there, unless
that row is its own one. -/
theorem Opens.sentinel_ne (h : Opens s gate table outputSize key second output)
    (h' : Opens s gate table' outputSize key (!second) output') :
    part? s table' (2 * (!second).toNat + 1) ≠ part? s table (2 * (!second).toNat + 1) := by
  obtain ⟨k, hk, hopened, _⟩ := h
  obtain ⟨k', hk', hopened', _⟩ := h'
  rw [hk, Except.ok.injEq] at hk'
  subst hk'
  intro hsame
  have hopens := opens_congr (s := s) (k := k) hsame
  rw [(opens_of_openedRows hopened').1, (opens_of_openedRows hopened).2, Except.ok.injEq] at hopens
  cases hopens

/-- A key opens the same row of the same table, and finds the same output key. -/
theorem Opens.unique (law : s.Lawful) (h : Opens s gate table outputSize key second output)
    (h' : Opens s gate table outputSize key second' output') : output' = output := by
  by_cases hrow : second' = second
  · subst hrow
    exact (h.same_row law h').2.2 rfl
  · obtain rfl : second' = !second := by cases second <;> cases second' <;> simp_all
    exact absurd rfl (h.sentinel_ne h')

end

/-! ## A changed byte -/

/-- The tables differ in one of their four parts, and in no other. -/
def DiffersInPart (s : Scheme) (table table' : Bytes) (changed : Nat) : Prop :=
  ∀ part < 4, part? s table' part = part? s table part ↔ changed ≠ part

theorem cipherSize_pos_of_lt {position : Nat} (hlen : table.length = tableSize s)
    (hposition : position < table.length) : 0 < s.cipherSize := by
  rw [hlen, tableSize] at hposition
  omega

/-- A masked byte changes the part that it lies in. -/
theorem differsInPart_maskAt {position : Nat} {mask : UInt8} (hmask : mask ≠ 0)
    (hlen : table.length = tableSize s) (hposition : position < table.length) :
    DiffersInPart s table (table.maskAt position mask) (position / s.cipherSize) := by
  intro part hpart
  refine Bytes.piece_maskAt_eq_iff hmask (cipherSize_pos_of_lt hlen hposition) ?_
  rw [hlen, tableSize, ← Nat.succ_mul]
  exact Nat.mul_le_mul_right _ hpart

section

variable {outputSize : Nat} {key output output' : Bool → Bytes} {second second' row : Bool}

/-- When a sentinel is changed, the two keys do not open one row each any more. -/
theorem not_opens_of_changed_sentinel (law : s.Lawful)
    (hchanged : DiffersInPart s table table' (2 * row.toNat + 1))
    (h : ∀ bit, Opens s gate table outputSize (key bit) (second ^^ bit) (output bit))
    (h' : ∀ bit, Opens s gate table' outputSize (key bit) (second' ^^ bit) (output' bit)) :
    False := by
  obtain ⟨bit, hbit⟩ : ∃ bit, (second ^^ bit) = row := ⟨second ^^ row, by simp⟩
  have hown := h bit
  have hopens := h' bit
  rw [hbit] at hown
  by_cases hsame : (second' ^^ bit) = row
  · rw [hsame] at hopens
    exact (hchanged _ (by cases row <;> decide)).1 (hown.same_row law hopens).1 rfl
  · -- the key would have to open the other row, which is as it was
    obtain hother : (second' ^^ bit) = !row := Bool.eq_not_of_ne hsame
    rw [hother] at hopens
    refine hown.sentinel_ne hopens ((hchanged _ (by cases row <;> decide)).2 ?_)
    cases row <;> decide

/-- When a payload is changed, the key of its row finds another output key in it, and the other
key finds its own. -/
theorem output_of_changed_payload (law : s.Lawful)
    (hchanged : DiffersInPart s table table' (2 * row.toNat))
    (h : ∀ bit, Opens s gate table outputSize (key bit) (second ^^ bit) (output bit))
    (h' : ∀ bit, Opens s gate table' outputSize (key bit) (second' ^^ bit) (output' bit)) :
    ∃ changed, ∀ bit, output' bit = output bit ↔ bit ≠ changed := by
  -- all sentinels are as they were, so the keys open the same rows
  have hsecond : second' = second := by
    have hown := h false
    have hopens := h' false
    rw [Bool.xor_false] at hown hopens
    by_cases hsame : second' = second
    · exact hsame
    · obtain rfl : second' = !second := Bool.eq_not_of_ne hsame
      refine absurd ((hchanged _ ?_).2 ?_) (hown.sentinel_ne hopens)
      · cases second <;> decide
      · cases row <;> cases second <;> decide
  subst hsecond
  refine ⟨second' ^^ row, fun bit => ?_⟩
  rw [((h bit).same_row law (h' bit)).2, hchanged _ (by cases second' <;> cases bit <;> decide)]
  cases second' <;> cases row <;> cases bit <;> decide

/-- If both keys still open their rows when a byte is changed, the byte lies in a payload, and
exactly one of the two keys finds another output key. -/
theorem payload_of_opens_maskAt (law : s.Lawful) {position : Nat} {mask : UInt8}
    (hlen : table.length = tableSize s) (hposition : position < table.length) (hmask : mask ≠ 0)
    (h : ∀ bit, Opens s gate table outputSize (key bit) (second ^^ bit) (output bit))
    (h' : ∀ bit, Opens s gate (table.maskAt position mask) outputSize (key bit) (second' ^^ bit)
      (output' bit)) :
    position % (2 * s.cipherSize) < s.cipherSize ∧
      ∃ changed, ∀ bit, output' bit = output bit ↔ bit ≠ changed := by
  have hsize := cipherSize_pos_of_lt hlen hposition
  have hchanged := differsInPart_maskAt hmask hlen hposition
  have hpart : position / s.cipherSize < 4 := by
    rw [Nat.div_lt_iff_lt_mul hsize]
    rwa [hlen] at hposition
  have hparts : ∀ part < 4, ∃ row last : Bool, part = 2 * row.toNat + last.toNat := by decide
  obtain ⟨row, last, hrow⟩ := hparts _ hpart
  rw [hrow] at hchanged
  cases last with
  | true => exact (not_opens_of_changed_sentinel law hchanged h h').elim
  | false =>
    refine ⟨?_, output_of_changed_payload law hchanged h h'⟩
    have heven : position % (s.cipherSize * 2) / s.cipherSize = 0 := by
      rw [Nat.mod_mul_right_div_self, hrow]
      cases row <;> rfl
    rw [Nat.mul_comm]
    exact (Nat.div_eq_zero_iff_lt hsize).1 heven

end

/-- A changed byte in a payload leaves the rows as they open. With payloads of whole blocks
there is always an output key in them. -/
theorem exists_opens_maskAt (law : s.Lawful) {position : Nat} {mask : UInt8}
    (hlen : table.length = tableSize s) (hposition : position < table.length) (hmask : mask ≠ 0)
    (hpayload : position % (2 * s.cipherSize) < s.cipherSize) {key output : Bytes} {second : Bool}
    (h : Opens s gate table s.cipherSize key second output) :
    ∃ output', Opens s gate (table.maskAt position mask) s.cipherSize key second output' := by
  have hsize := cipherSize_pos_of_lt hlen hposition
  have heven : position / s.cipherSize % 2 = 0 := by
    rw [← Nat.mod_mul_right_div_self, Nat.mul_comm]
    exact (Nat.div_eq_zero_iff_lt hsize).2 hpayload
  obtain ⟨k, hk, hopened, _⟩ := h
  have hsentinel : ∀ row < 2, opens s k (table.maskAt position mask) row = opens s k table row :=
    fun row hrow => opens_congr
      ((differsInPart_maskAt hmask hlen hposition _ (by omega)).2 (by omega))
  have hopened' : openedRows s k (table.maskAt position mask) = .ok (!second, second) := by
    rw [openedRows, hsentinel 0 (by decide), hsentinel 1 (by decide)]
    exact hopened
  obtain ⟨sentinel, _, hzeros⟩ := sentinel_of_opens (law.under _) (opens_of_openedRows hopened).1
  obtain ⟨payload, hpart⟩ : ∃ payload,
      part? s (table.maskAt position mask) (2 * second.toNat) = some payload := by
    refine ⟨_, Bytes.slice?_eq_some_iff.2 ⟨?_, rfl⟩⟩
    rw [Bytes.length_maskAt, hlen, tableSize, ← Nat.succ_mul]
    exact Nat.mul_le_mul_right _ (by cases second <;> decide)
  obtain ⟨plain, hplain⟩ := law.exists_decrypt hzeros (Bytes.length_of_slice? hpart)
  have hwhole := law.length_decrypt hplain
  have hrest : plain.drop s.cipherSize = [] := List.drop_eq_nil_of_le (Nat.le_of_eq hwhole)
  refine ⟨plain.take s.cipherSize, k, hk, hopened', ?_⟩
  rw [payload?_eq, decryptPart_eq_ok.2 ⟨payload, hpart, hplain⟩, ok_bind]
  rw [if_neg (by simp [hwhole, hrest, Bytes.isZero])]
  rfl

end Garbling.IdentityGate
