-- Honest identity tables. Each of the two keys opens its own row, in
-- either order of the rows, if the two sentinels differ. Equal sentinels
-- would open with both keys.
import Garbling.Proofs.IdentityRows
import Garbling.Proofs.KeyArray.Choice
import Garbling.Proofs.MultiKey.Laws

namespace Garbling.IdentityGate

/-! ## The parts of a table -/

/-- One of the four ciphertexts of a table: of each row, first the payload and then the
sentinel. -/
def part? (s : Scheme) (table : Bytes) (part : Nat) : Option Bytes :=
  table.slice? (part * s.cipherSize) s.cipherSize

/-- The sentinels of the two rows differ, which are the zeros encrypted under each key. -/
def SentinelsDiffer (s : Scheme) (table : Bytes) : Prop := part? s table 1 ≠ part? s table 3

instance (s : Scheme) (table : Bytes) : Decidable (SentinelsDiffer s table) :=
  inferInstanceAs (Decidable (part? s table 1 ≠ part? s table 3))

theorem rows_eq_flatMap (parts : Nat → Bytes) :
    (parts 0 ++ parts 1) ++ (parts 2 ++ parts 3) = (List.range 4).flatMap parts := by
  simp [List.range_succ]

theorem part?_rows {s : Scheme} {parts : Nat → Bytes} (h : ∀ i < 4, (parts i).length = s.cipherSize)
    {i : Nat} (hi : i < 4) :
    part? s ((parts 0 ++ parts 1) ++ (parts 2 ++ parts 3)) i = some (parts i) := by
  rw [part?, rows_eq_flatMap, slice?_flatMap_range h hi]

/-- A table of the right length is what its four parts make together. -/
theorem eq_rows {s : Scheme} {table a b c d : Bytes} (hlen : table.length = tableSize s)
    (ha : part? s table 0 = some a) (hb : part? s table 1 = some b)
    (hc : part? s table 2 = some c) (hd : part? s table 3 = some d) :
    (a ++ b) ++ (c ++ d) = table := by
  let parts : Nat → Bytes := fun i => [a, b, c, d].getD i []
  have h : ∀ i < 4, part? s table i = some (parts i) := by
    intro i hi
    match i with
    | 0 => exact ha
    | 1 => exact hb
    | 2 => exact hc
    | 3 => exact hd
  exact (rows_eq_flatMap parts).trans (eq_flatMap_range hlen h).symm

theorem isZero_eq_true {bs : Bytes} : bs.isZero = true ↔ bs = Bytes.zeros bs.length := by
  simp [Bytes.isZero, Bytes.zeros, List.eq_replicate_iff]

section

variable {s : Scheme} {gate : UInt32} {table : Bytes} {k : Keying}

theorem opens_eq_ok {row : Nat} {sentinel plain : Bytes}
    (hpart : part? s table (2 * row + 1) = some sentinel) (h : s.decrypt k sentinel = .ok plain) :
    opens s k table row = .ok plain.isZero := by
  unfold part? at hpart
  simp only [opens, decryptPart, hpart, inRange, ok_bind, h]
  rfl

/-- Whether a key opens a row is seen from the sentinel of the row alone. -/
theorem opens_congr {table' : Bytes} {row row' : Nat}
    (h : part? s table' (2 * row' + 1) = part? s table (2 * row + 1)) :
    opens s k table' row' = opens s k table row := by
  unfold part? at h
  rw [opens, opens, decryptPart, decryptPart, h]

/-- A key that opens one row only tells the two sentinels apart. -/
theorem sentinelsDiffer_of_opens {outputSize : Nat} {key output : Bytes} {second : Bool}
    (h : Opens s gate table outputSize key second output) : SentinelsDiffer s table := by
  obtain ⟨k, _, hopened, _⟩ := h
  unfold openedRows at hopened
  obtain ⟨first, hfirst, hopened⟩ := bind_eq_ok.1 hopened
  obtain ⟨last, hlast, hopened⟩ := bind_eq_ok.1 hopened
  rw [pure_eq_ok, Prod.mk.injEq] at hopened
  obtain ⟨rfl, rfl⟩ := hopened
  intro hsame
  have hopens : opens s k table 1 = opens s k table 0 := opens_congr hsame.symm
  rw [hfirst, hlast, Except.ok.injEq] at hopens
  cases last <;> cases hopens

/-- A key opens the row with its own sentinel. -/
theorem opens_own (law : s.LawfulUnder k) {row : Nat} {sentinel : Bytes}
    (hpart : part? s table (2 * row + 1) = some sentinel)
    (h : s.encrypt k (Bytes.zeros s.cipherSize) = .ok sentinel) :
    opens s k table row = .ok true := by
  have hplain := law.decrypt_of_encrypt (Bytes.length_zeros_le s.cipherSize) h
  rw [opens_eq_ok hpart hplain, Bytes.padTo_zeros, Bytes.isZero_zeros]

/-- A key opens no row with another sentinel: encrypting what it decrypts to zeros would give
its own one. -/
theorem opens_other (law : s.LawfulUnder k) {row : Nat} {sentinel other : Bytes}
    (hpart : part? s table (2 * row + 1) = some other) (hne : other ≠ sentinel)
    (h : s.encrypt k (Bytes.zeros s.cipherSize) = .ok sentinel) :
    opens s k table row = .ok false := by
  have hlen := Bytes.length_of_slice? hpart
  obtain ⟨plain, hplain⟩ := law.exists_decrypt (Bytes.length_zeros_le s.cipherSize) h hlen
  rw [opens_eq_ok hpart hplain, Except.ok.injEq, Bool.eq_false_iff]
  intro hzero
  have hzeros := isZero_eq_true.1 hzero
  rw [law.length_decrypt hlen hplain] at hzeros
  have := law.encrypt_of_decrypt hlen hplain
  rw [hzeros, h, Except.ok.injEq] at this
  exact hne this.symm

/-- The payload of a row is the output key that was encrypted. -/
theorem payload?_own (law : s.LawfulUnder k) {row : Nat} {payload output : Bytes}
    (hfits : output.length ≤ s.cipherSize) (hpart : part? s table (2 * row) = some payload)
    (h : s.encrypt k output = .ok payload) :
    payload? s k table row output.length = .ok (some output) := by
  unfold part? at hpart
  have hplain : decryptPart s k table (2 * row) = .ok (output.padTo s.cipherSize) := by
    simp only [decryptPart, hpart, inRange, ok_bind, law.decrypt_of_encrypt hfits h]
    rfl
  have hlen : ¬ (output.padTo s.cipherSize).length < output.length := by
    rw [Bytes.padTo, List.length_append]
    omega
  have hrest : Bytes.isZero ((output.padTo s.cipherSize).drop output.length) = true := by
    rw [Bytes.padTo, List.drop_left, Bytes.isZero_zeros]
  rw [payload?_eq, hplain, ok_bind]
  simp only [hlen, hrest, not_true, or_self, if_false]
  rw [Bytes.padTo, List.take_left]
  rfl

/-- The row, the second one if `second` says so, carries the key to the output. -/
def HasRow (s : Scheme) (gate : UInt32) (table : Bytes) (second : Bool) (key output : Bytes) :
    Prop :=
  ∃ k payload sentinel, keying s gate key = .ok k ∧ s.encrypt k output = .ok payload ∧
    s.encrypt k (Bytes.zeros s.cipherSize) = .ok sentinel ∧
    part? s table (2 * second.toNat) = some payload ∧
    part? s table (2 * second.toNat + 1) = some sentinel

theorem HasRow.fits (law : s.Lawful) {second : Bool} {key output : Bytes}
    (h : HasRow s gate table second key output) : output.length ≤ s.cipherSize := by
  obtain ⟨_, _, _, _, hpayload, _⟩ := h
  exact law.length_le hpayload

/-- If the sentinels of two rows differ, the key of each of them opens its own row only. -/
theorem opens_of_hasRow {second : Bool} {key output key' output' : Bytes}
    (law : ∀ k, keying s gate key = .ok k → s.LawfulUnder k) (hfits : output.length ≤ s.cipherSize)
    (hown : HasRow s gate table second key output)
    (hother : HasRow s gate table (!second) key' output') (hdiffer : SentinelsDiffer s table) :
    Opens s gate table output.length key second output := by
  obtain ⟨k, payload, sentinel, hk, hpayload, hsentinel, hpart, hsentinelPart⟩ := hown
  obtain ⟨_, _, other, _, _, _, _, hotherPart⟩ := hother
  refine ⟨k, hk, ?_, payload?_own (law k hk) hfits hpart hpayload⟩
  have hne : other ≠ sentinel := by
    rintro rfl
    unfold SentinelsDiffer at hdiffer
    cases second with
    | false => exact hdiffer (hsentinelPart.trans hotherPart.symm)
    | true => exact hdiffer (hotherPart.trans hsentinelPart.symm)
  have htrue := opens_own (law k hk) hsentinelPart hsentinel
  have hfalse := opens_other (law k hk) hotherPart hne hsentinel
  unfold openedRows
  cases second with
  | false =>
    simp only [Bool.toNat_false, Bool.not_false, Bool.toNat_true] at htrue hfalse ⊢
    rw [htrue, ok_bind, hfalse, ok_bind]
    rfl
  | true =>
    simp only [Bool.toNat_false, Bool.not_true, Bool.toNat_true] at htrue hfalse ⊢
    rw [hfalse, ok_bind, htrue, ok_bind]
    rfl

end

/-! ## What a row holds -/

section

variable {s : Scheme} {table : Bytes} {k : Keying}

theorem decryptPart_eq_ok {part : Nat} {plain : Bytes} :
    decryptPart s k table part = .ok plain ↔
      ∃ ciphertext, part? s table part = some ciphertext ∧ s.decrypt k ciphertext = .ok plain := by
  unfold decryptPart
  rw [bind_eq_ok]
  simp only [inRange_eq_ok, mapError_eq_ok]
  rfl

/-- A key opens a row only if the sentinel is its own one. -/
theorem sentinel_of_opens (law : s.LawfulUnder k) {row : Nat} (h : opens s k table row = .ok true) :
    ∃ sentinel, part? s table (2 * row + 1) = some sentinel ∧
      s.encrypt k (Bytes.zeros s.cipherSize) = .ok sentinel := by
  unfold opens at h
  obtain ⟨plain, hplain, h⟩ := bind_eq_ok.1 h
  obtain ⟨sentinel, hpart, hdecrypt⟩ := decryptPart_eq_ok.1 hplain
  have hlen := Bytes.length_of_slice? hpart
  have hzeros := isZero_eq_true.1 (pure_eq_ok.1 h)
  rw [law.length_decrypt hlen hdecrypt] at hzeros
  refine ⟨sentinel, hpart, ?_⟩
  rw [← hzeros]
  exact law.encrypt_of_decrypt hlen hdecrypt

/-- The payload of a row is the output key in it, encrypted. -/
theorem part?_of_payload? (law : s.LawfulUnder k) {row outputSize : Nat} {output : Bytes}
    (h : payload? s k table row outputSize = .ok (some output)) :
    ∃ payload, part? s table (2 * row) = some payload ∧
      s.encrypt k (Bytes.padTo s.cipherSize output) = .ok payload := by
  rw [payload?_eq] at h
  obtain ⟨plain, hplain, h⟩ := bind_eq_ok.1 h
  obtain ⟨payload, hpart, hdecrypt⟩ := decryptPart_eq_ok.1 hplain
  refine ⟨payload, hpart, ?_⟩
  split at h
  · cases h
  rename_i hpadded
  cases h
  rw [not_or, Decidable.not_not] at hpadded
  have hpartLen := Bytes.length_of_slice? hpart
  have hlen := law.length_decrypt hpartLen hdecrypt
  have hpad : Bytes.padTo s.cipherSize (plain.take outputSize) = plain := by
    have hrest := isZero_eq_true.1 hpadded.2
    rw [List.length_drop, hlen] at hrest
    rw [Bytes.padTo, List.length_take, Nat.min_eq_left (by omega), ← hrest, List.take_append_drop]
  rw [hpad]
  exact law.encrypt_of_decrypt hpartLen hdecrypt

theorem openedRows_eq_ok {first second : Bool} : openedRows s k table = .ok (first, second) ↔
    opens s k table 0 = .ok first ∧ opens s k table 1 = .ok second := by
  unfold openedRows
  rw [bind_eq_ok]
  constructor
  · rintro ⟨_, hfirst, h⟩
    obtain ⟨_, hsecond, h⟩ := bind_eq_ok.1 h
    rw [pure_eq_ok, Prod.mk.injEq] at h
    obtain ⟨rfl, rfl⟩ := h
    exact ⟨hfirst, hsecond⟩
  · rintro ⟨hfirst, hsecond⟩
    exact ⟨first, hfirst, bind_eq_ok.2 ⟨second, hsecond, rfl⟩⟩

/-- A key that opens one row opens that row, and not the other one. -/
theorem opens_of_openedRows {second : Bool} (h : openedRows s k table = .ok (!second, second)) :
    opens s k table second.toNat = .ok true ∧ opens s k table (!second).toNat = .ok false := by
  obtain ⟨h0, h1⟩ := openedRows_eq_ok.1 h
  cases second with
  | false => exact ⟨h0, h1⟩
  | true => exact ⟨h1, h0⟩

end

/-! ## Honest tables -/

section

variable {s : Scheme} {gate : UInt32}

theorem encryptBlock_eq_ok {k : Keying} {plaintext ciphertext : Bytes} :
    encryptBlock s k plaintext = .ok ciphertext ↔
      s.encrypt k plaintext = .ok ciphertext ∧ ciphertext.length = s.cipherSize := by
  unfold encryptBlock
  rw [bind_eq_ok]
  constructor
  · rintro ⟨found, hfound, h⟩
    rw [mapError_eq_ok] at hfound
    split at h
    · rename_i hlen
      rw [pure_eq_ok] at h
      subst h
      exact ⟨hfound, hlen⟩
    · rw [throw_ne_ok] at h
      exact h.elim
  · rintro ⟨hfound, hlen⟩
    exact ⟨ciphertext, mapError_eq_ok.2 hfound, by rw [if_pos hlen]; rfl⟩

/-- The row that carries an input key to an output key: the encrypted output key, and then the
encrypted zeros. -/
def row (s : Scheme) (gate : UInt32) (inputKey outputKey : Bytes) : Except Error Bytes := do
  let k ← keying s gate inputKey
  let payload ← encryptBlock s k outputKey
  let sentinel ← encryptBlock s k (Bytes.zeros s.cipherSize)
  return payload ++ sentinel

theorem row_eq_ok {key output bytes : Bytes} : row s gate key output = .ok bytes ↔
    ∃ k payload sentinel, keying s gate key = .ok k ∧ s.encrypt k output = .ok payload ∧
      payload.length = s.cipherSize ∧ s.encrypt k (Bytes.zeros s.cipherSize) = .ok sentinel ∧
      sentinel.length = s.cipherSize ∧ payload ++ sentinel = bytes := by
  unfold row
  constructor
  · intro h
    obtain ⟨k, hk, h⟩ := bind_eq_ok.1 h
    obtain ⟨payload, hpayload, h⟩ := bind_eq_ok.1 h
    obtain ⟨sentinel, hsentinel, h⟩ := bind_eq_ok.1 h
    obtain ⟨hp, hplen⟩ := encryptBlock_eq_ok.1 hpayload
    obtain ⟨hs, hslen⟩ := encryptBlock_eq_ok.1 hsentinel
    exact ⟨k, payload, sentinel, hk, hp, hplen, hs, hslen, pure_eq_ok.1 h⟩
  · rintro ⟨k, payload, sentinel, hk, hp, hplen, hs, hslen, h⟩
    refine bind_eq_ok.2 ⟨k, hk, ?_⟩
    refine bind_eq_ok.2 ⟨payload, encryptBlock_eq_ok.2 ⟨hp, hplen⟩, ?_⟩
    exact bind_eq_ok.2 ⟨sentinel, encryptBlock_eq_ok.2 ⟨hs, hslen⟩, pure_eq_ok.2 h⟩

theorem length_of_row {key output bytes : Bytes} (h : row s gate key output = .ok bytes) :
    bytes.length = 2 * s.cipherSize := by
  obtain ⟨_, payload, sentinel, _, _, hpayload, _, hsentinel, rfl⟩ := row_eq_ok.1 h
  rw [List.length_append, hpayload, hsentinel]
  omega

/-- A block always fits into the place of a part. -/
theorem encryptPart_append {k : Keying} {part : Nat} {plaintext before old after : Bytes}
    (hbefore : before.length = part * s.cipherSize) (hold : old.length = s.cipherSize) :
    encryptPart s k part plaintext (before ++ old ++ after) =
      (encryptBlock s k plaintext).map fun ciphertext => before ++ ciphertext ++ after := by
  unfold encryptPart
  cases hblock : encryptBlock s k plaintext with
  | error e => rfl
  | ok ciphertext =>
    rw [ok_bind, Bytes.write?_append hbefore hold (encryptBlock_eq_ok.1 hblock).2]
    rfl

/-- What is written next to each other is one row. -/
theorem writeRow_append (before after : Bytes) {second : Bool} {key output first last : Bytes}
    (hbefore : before.length = 2 * second.toNat * s.cipherSize)
    (hfirst : first.length = s.cipherSize) (hlast : last.length = s.cipherSize) :
    writeRow s gate second key output (before ++ (first ++ last) ++ after) =
      (row s gate key output).map fun bytes => before ++ bytes ++ after := by
  unfold writeRow row
  cases keying s gate key with
  | error e => rfl
  | ok k =>
    rw [ok_bind, ok_bind, show before ++ (first ++ last) ++ after = before ++ first ++ (last ++ after)
      by simp only [List.append_assoc], encryptPart_append hbefore hfirst]
    cases hpayload : encryptBlock s k output with
    | error e => rfl
    | ok payload =>
      have hnext : (before ++ payload).length = (2 * second.toNat + 1) * s.cipherSize := by
        rw [List.length_append, hbefore, (encryptBlock_eq_ok.1 hpayload).2, Nat.add_mul, Nat.one_mul]
      rw [Except.map, ok_bind, ok_bind, ← List.append_assoc, encryptPart_append hnext hlast]
      cases encryptBlock s k (Bytes.zeros s.cipherSize) with
      | error e => rfl
      | ok sentinel => exact congrArg (Except.ok <| · ++ after) (List.append_assoc _ _ _)

/-- A table is made of two rows, in one of the two orders. -/
theorem table_eq (s : Scheme) (gate : UInt32) (zeroSecond : Bool) (inputs outputs : Bytes × Bytes) :
    table s gate zeroSecond inputs outputs = do
      let row0 ← row s gate inputs.1 outputs.1
      let row1 ← row s gate inputs.2 outputs.2
      return if zeroSecond then row1 ++ row0 else row0 ++ row1 := by
  let zeros := Bytes.zeros s.cipherSize
  have hzeros : zeros.length = s.cipherSize := Bytes.length_zeros _
  have hblank : Bytes.zeros (tableSize s) = (zeros ++ zeros) ++ (zeros ++ zeros) := by
    simp [zeros, Bytes.zeros, tableSize, List.replicate_append_replicate]
    omega
  have hfirst : ∀ key output rest, writeRow s gate false key output ((zeros ++ zeros) ++ rest) =
      (row s gate key output).map (· ++ rest) := fun key output rest =>
    writeRow_append [] rest (by simp) hzeros hzeros
  have hsecond : ∀ key output front, front.length = 2 * s.cipherSize →
      writeRow s gate true key output (front ++ (zeros ++ zeros)) =
        (row s gate key output).map (front ++ ·) := by
    intro key output front hfront
    have hlast : writeRow s gate true key output (front ++ (zeros ++ zeros) ++ []) =
        (row s gate key output).map (front ++ · ++ []) :=
      writeRow_append front [] (by simpa using hfront) hzeros hzeros
    simpa only [List.append_nil] using hlast
  unfold table
  rw [hblank]
  cases zeroSecond with
  | false =>
    rw [hfirst]
    cases hrow : row s gate inputs.1 outputs.1 with
    | error e => rfl
    | ok row0 =>
      rw [Except.map, ok_bind, ok_bind, Bool.not_false, hsecond _ _ _ (length_of_row hrow)]
      cases row s gate inputs.2 outputs.2 <;> rfl
  | true =>
    rw [hsecond _ _ _ (by rw [List.length_append, hzeros]; omega)]
    cases row s gate inputs.1 outputs.1 with
    | error e => rfl
    | ok row0 =>
      rw [Except.map, ok_bind, ok_bind, Bool.not_true, hfirst]
      cases row s gate inputs.2 outputs.2 <;> rfl

/-- An honest table has a row for each key, in one of the two orders. -/
theorem hasRow_of_table {zeroSecond : Bool} {inputs outputs : Bytes × Bytes} {bytes : Bytes}
    (h : table s gate zeroSecond inputs outputs = .ok bytes) : bytes.length = tableSize s ∧
      HasRow s gate bytes zeroSecond inputs.1 outputs.1 ∧
      HasRow s gate bytes (!zeroSecond) inputs.2 outputs.2 := by
  rw [table_eq] at h
  obtain ⟨row0, hrow0, h⟩ := bind_eq_ok.1 h
  obtain ⟨row1, hrow1, h⟩ := bind_eq_ok.1 h
  rw [pure_eq_ok] at h
  obtain ⟨k0, p0, s0, hk0, hp0, hplen0, hs0, hslen0, rfl⟩ := row_eq_ok.1 hrow0
  obtain ⟨k1, p1, s1, hk1, hp1, hplen1, hs1, hslen1, rfl⟩ := row_eq_ok.1 hrow1
  let parts : Nat → Bytes := fun i =>
    if zeroSecond then [p1, s1, p0, s0].getD i [] else [p0, s0, p1, s1].getD i []
  have hparts : bytes = (parts 0 ++ parts 1) ++ (parts 2 ++ parts 3) := by
    rw [← h]
    cases zeroSecond <;> rfl
  have hlen : ∀ i < 4, (parts i).length = s.cipherSize := by
    intro i hi
    match i with
    | 0 | 1 | 2 | 3 => cases zeroSecond <;> assumption
    | i + 4 => omega
  have hpart : ∀ i < 4, part? s bytes i = some (parts i) := by
    intro i hi
    rw [hparts]
    exact part?_rows hlen hi
  have hsize : bytes.length = tableSize s := by
    simp only [hparts, List.length_append, hlen 0 (by decide), hlen 1 (by decide),
      hlen 2 (by decide), hlen 3 (by decide), tableSize]
    omega
  cases zeroSecond with
  | false => exact ⟨hsize, ⟨k0, p0, s0, hk0, hp0, hs0, hpart 0 (by decide), hpart 1 (by decide)⟩,
      ⟨k1, p1, s1, hk1, hp1, hs1, hpart 2 (by decide), hpart 3 (by decide)⟩⟩
  | true => exact ⟨hsize, ⟨k0, p0, s0, hk0, hp0, hs0, hpart 2 (by decide), hpart 3 (by decide)⟩,
      ⟨k1, p1, s1, hk1, hp1, hs1, hpart 0 (by decide), hpart 1 (by decide)⟩⟩

/-- The row of a key that a table has is the one that encryption makes. -/
theorem HasRow.row_eq_ok {bytes : Bytes} {second : Bool} {key output : Bytes}
    (h : HasRow s gate bytes second key output) : ∃ payload sentinel,
      row s gate key output = .ok (payload ++ sentinel) ∧
      part? s bytes (2 * second.toNat) = some payload ∧
      part? s bytes (2 * second.toNat + 1) = some sentinel := by
  obtain ⟨k, payload, sentinel, hk, hp, hs, hpart, hsentinelPart⟩ := h
  refine ⟨payload, sentinel, ?_, hpart, hsentinelPart⟩
  exact IdentityGate.row_eq_ok.2 ⟨k, payload, sentinel, hk, hp, Bytes.length_of_slice? hpart, hs,
    Bytes.length_of_slice? hsentinelPart, rfl⟩

/-- A table that has a row for each key, in one of the two orders, is an honest one. -/
theorem table_of_hasRow {zeroSecond : Bool} {inputs outputs : Bytes × Bytes} {bytes : Bytes}
    (hlen : bytes.length = tableSize s) (h0 : HasRow s gate bytes zeroSecond inputs.1 outputs.1)
    (h1 : HasRow s gate bytes (!zeroSecond) inputs.2 outputs.2) :
    table s gate zeroSecond inputs outputs = .ok bytes := by
  obtain ⟨p0, s0, hrow0, hp0, hs0⟩ := h0.row_eq_ok
  obtain ⟨p1, s1, hrow1, hp1, hs1⟩ := h1.row_eq_ok
  rw [table_eq]
  refine bind_eq_ok.2 ⟨_, hrow0, bind_eq_ok.2 ⟨_, hrow1, pure_eq_ok.2 ?_⟩⟩
  cases zeroSecond with
  | false => exact eq_rows hlen hp0 hs0 hp1 hs1
  | true => exact eq_rows hlen hp1 hs1 hp0 hs0

/-- The zeros, encrypted under an input key of a gate. -/
def sentinel (s : Scheme) (gate : UInt32) (key : Bytes) : Except Error Bytes := do
  let k ← keying s gate key
  encryptBlock s k (Bytes.zeros s.cipherSize)

/-- The sentinel of a key is that of its row. -/
theorem sentinel_of_hasRow {second : Bool} {key output : Bytes} {table : Bytes}
    (h : HasRow s gate table second key output) : ∃ ciphertext,
      sentinel s gate key = .ok ciphertext ∧
      part? s table (2 * second.toNat + 1) = some ciphertext := by
  obtain ⟨k, _, ciphertext, hk, _, hsentinel, _, hpart⟩ := h
  refine ⟨ciphertext, ?_, hpart⟩
  rw [sentinel, hk, ok_bind, encryptBlock_eq_ok.2 ⟨hsentinel, Bytes.length_of_slice? hpart⟩]

/-- The sentinels of an honest table differ if and only if those of its two keys do. -/
theorem sentinelsDiffer_iff_of_table {zeroSecond : Bool} {inputs outputs : Bytes × Bytes}
    {bytes : Bytes} (h : table s gate zeroSecond inputs outputs = .ok bytes) :
    SentinelsDiffer s bytes ↔ sentinel s gate inputs.1 ≠ sentinel s gate inputs.2 := by
  obtain ⟨_, h0, h1⟩ := hasRow_of_table h
  obtain ⟨first, hfirst, hpart⟩ := sentinel_of_hasRow h0
  obtain ⟨last, hlast, hpart'⟩ := sentinel_of_hasRow h1
  have hparts : part? s bytes (2 * zeroSecond.toNat + 1) ≠
      part? s bytes (2 * (!zeroSecond).toNat + 1) ↔
        sentinel s gate inputs.1 ≠ sentinel s gate inputs.2 := by
    rw [hpart, hpart', hfirst, hlast]
    simp
  rw [← hparts, SentinelsDiffer]
  cases zeroSecond with
  | false => rfl
  | true => exact ne_comm

/-- Both keys of an honest table open their rows if its sentinels differ. -/
theorem opens_of_table_under (law : ∀ key k, keying s gate key = .ok k → s.LawfulUnder k)
    {zeroSecond : Bool} {inputs outputs : Bytes × Bytes} {bytes : Bytes}
    (hfits0 : outputs.1.length ≤ s.cipherSize) (hfits1 : outputs.2.length ≤ s.cipherSize)
    (h : table s gate zeroSecond inputs outputs = .ok bytes) (hdiffer : SentinelsDiffer s bytes) :
    Opens s gate bytes outputs.1.length inputs.1 zeroSecond outputs.1 ∧
      Opens s gate bytes outputs.2.length inputs.2 (!zeroSecond) outputs.2 := by
  obtain ⟨_, h0, h1⟩ := hasRow_of_table h
  have hother : HasRow s gate bytes (!(!zeroSecond)) inputs.1 outputs.1 := by
    rwa [Bool.not_not]
  exact ⟨opens_of_hasRow (law inputs.1) hfits0 h0 h1 hdiffer,
    opens_of_hasRow (law inputs.2) hfits1 h1 hother hdiffer⟩

theorem opens_of_table (law : s.Lawful) {zeroSecond : Bool} {inputs outputs : Bytes × Bytes}
    {bytes : Bytes} (h : table s gate zeroSecond inputs outputs = .ok bytes)
    (hdiffer : SentinelsDiffer s bytes) :
    Opens s gate bytes outputs.1.length inputs.1 zeroSecond outputs.1 ∧
      Opens s gate bytes outputs.2.length inputs.2 (!zeroSecond) outputs.2 := by
  obtain ⟨_, h0, h1⟩ := hasRow_of_table h
  exact opens_of_table_under (fun _ k _ => law.under k) (h0.fits law) (h1.fits law) h hdiffer

end

end Garbling.IdentityGate
