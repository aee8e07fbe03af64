-- The rows of an identity table. A key opens a row if the sentinel of
-- that row, and of no other, decrypts to zeros. The audit asks for this
-- with both keys, and evaluation finds the same row with one of them.
import Garbling.IdentityGate
import Garbling.Proofs.Outcomes

namespace Garbling.IdentityGate

/-! ## Opening a row -/

/-- The key opens one row only, the second one if `second` says so, and `output` is in it. -/
def Opens (s : Scheme) (gate : UInt32) (table : Bytes) (outputSize : Nat) (key : Bytes)
    (second : Bool) (output : Bytes) : Prop :=
  ∃ k, keying s gate key = .ok k ∧ openedRows s k table = .ok (!second, second) ∧
    payload? s k table second.toNat outputSize = .ok (some output)

section

variable {s : Scheme} {gate : UInt32} {table : Bytes} {outputSize : Nat}

/-- A payload is only split where it is long enough. -/
theorem payload?_eq {k : Keying} {row : Nat} :
    payload? s k table row outputSize = decryptPart s k table (2 * row) >>= fun plain =>
      if plain.length < outputSize ∨ ¬ Bytes.isZero (plain.drop outputSize) then
        pure none
      else
        pure (some (plain.take outputSize)) := by
  unfold payload?
  refine bind_congr fun plain => ?_
  by_cases hshort : plain.length < outputSize
  · rw [if_pos hshort, if_pos (.inl hshort)]
  · rw [if_neg hshort, splitAt?_eq_some (Nat.le_of_not_lt hshort), inRange, ok_bind]
    dsimp only
    by_cases hzero : Bytes.isZero (plain.drop outputSize) = true
    · rw [if_pos hzero, if_neg (by simp [hshort, hzero])]
    · rw [if_neg hzero, if_pos (.inr hzero)]

theorem length_of_payload? {k : Keying} {row : Nat} {output : Bytes}
    (h : payload? s k table row outputSize = .ok (some output)) : output.length = outputSize := by
  rw [payload?_eq] at h
  obtain ⟨plain, _, h⟩ := bind_eq_ok.1 h
  split at h
  · cases h
  · rename_i hlong
    cases h
    rw [List.length_take]
    omega

theorem Opens.length {key output : Bytes} {second : Bool}
    (h : Opens s gate table outputSize key second output) : output.length = outputSize := by
  obtain ⟨k, _, _, hpayload⟩ := h
  exact length_of_payload? hpayload

/-- A key that opens a row evaluates to what is in it. -/
theorem compute_of_opens {key output : Bytes} {second : Bool} (hlen : table.length = tableSize s)
    (h : Opens s gate table outputSize key second output) :
    compute s gate table key outputSize = .ok output := by
  obtain ⟨k, hk, hopened, hpayload⟩ := h
  have hrow : (if (!second) = true then 0 else 1) = second.toNat := by cases second <;> rfl
  have hsome : ¬ ((!(!second) && !second) = true) := by cases second <;> decide
  unfold compute
  simp only [hlen, ne_eq, not_true, if_false, hk, ok_bind, hopened, hsome, hrow, hpayload]
  rfl

/-! ## The audit -/

theorem auditRow_eq_ok {k : Keying} {second : Bool} :
    auditRow s gate k table = .ok second ↔ openedRows s k table = .ok (!second, second) := by
  unfold auditRow
  rw [bind_eq_ok]
  constructor
  · rintro ⟨⟨first, second'⟩, hopened, h⟩
    rw [mapError_eq_ok] at hopened
    obtain ⟨hne, h⟩ := guard_eq_ok.1 h
    rw [pure_eq_ok] at h
    subst h
    rw [hopened]
    cases first <;> cases second' <;> simp_all
  · intro hopened
    refine ⟨(!second, second), mapError_eq_ok.2 hopened, ?_⟩
    cases second <;> rfl

theorem auditPayload_eq_ok {k : Keying} {second : Bool} {output : Bytes} :
    auditPayload s gate k table second outputSize = .ok output ↔
      payload? s k table second.toNat outputSize = .ok (some output) := by
  unfold auditPayload
  rw [bind_eq_ok]
  constructor
  · rintro ⟨found, hpayload, h⟩
    rw [mapError_eq_ok] at hpayload
    rw [hpayload]
    cases found with
    | none => cases h
    | some key => rw [pure_eq_ok.1 h]
  · intro hpayload
    exact ⟨some output, mapError_eq_ok.2 hpayload, rfl⟩

/-- The audit accepts a table of which the two keys open different rows, and no other. -/
theorem audit_eq_ok {inputs outputs : Bytes × Bytes} :
    audit s gate table inputs outputSize = .ok outputs ↔ table.length = tableSize s ∧
      ∃ second, Opens s gate table outputSize inputs.1 second outputs.1 ∧
        Opens s gate table outputSize inputs.2 (!second) outputs.2 := by
  unfold audit
  refine guard_eq_ok.trans (and_congr Decidable.not_not ?_)
  constructor
  · intro h
    obtain ⟨k0, hk0, h⟩ := bind_eq_ok.1 h
    obtain ⟨k1, hk1, h⟩ := bind_eq_ok.1 h
    obtain ⟨second, hrow0, h⟩ := bind_eq_ok.1 h
    obtain ⟨second', hrow1, h⟩ := bind_eq_ok.1 h
    obtain ⟨hne, h⟩ := guard_eq_ok.1 h
    obtain ⟨output0, hpayload0, h⟩ := bind_eq_ok.1 h
    obtain ⟨output1, hpayload1, h⟩ := bind_eq_ok.1 h
    rw [pure_eq_ok] at h
    subst h
    have hother : second' = !second := by
      cases second <;> cases second' <;> simp_all
    subst hother
    rw [mapError_eq_ok] at hk0 hk1
    exact ⟨second, ⟨k0, hk0, auditRow_eq_ok.1 hrow0, auditPayload_eq_ok.1 hpayload0⟩,
      ⟨k1, hk1, auditRow_eq_ok.1 hrow1, auditPayload_eq_ok.1 hpayload1⟩⟩
  · rintro ⟨second, ⟨k0, hk0, hrow0, hpayload0⟩, ⟨k1, hk1, hrow1, hpayload1⟩⟩
    refine bind_eq_ok.2 ⟨k0, mapError_eq_ok.2 hk0, ?_⟩
    refine bind_eq_ok.2 ⟨k1, mapError_eq_ok.2 hk1, ?_⟩
    refine bind_eq_ok.2 ⟨second, auditRow_eq_ok.2 hrow0, ?_⟩
    refine bind_eq_ok.2 ⟨!second, auditRow_eq_ok.2 hrow1, ?_⟩
    refine guard_eq_ok.2 ⟨by cases second <;> decide, ?_⟩
    refine bind_eq_ok.2 ⟨outputs.1, auditPayload_eq_ok.2 hpayload0, ?_⟩
    exact bind_eq_ok.2 ⟨outputs.2, auditPayload_eq_ok.2 hpayload1, rfl⟩

end

end Garbling.IdentityGate
