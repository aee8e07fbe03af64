-- What the audit of an identity table accepts, to the byte. A table passes
-- exactly if encryption makes it for the keys that the audit gives, in one
-- order of the rows or the other, and if the two sentinels differ. Its two
-- input keys then evaluate to the keys that the audit gave.
import Garbling.Proofs.IdentityTables
import Garbling.Proofs.MultiKey.Permutation

namespace Garbling.IdentityGate

section

variable {s : Scheme} {gate : UInt32}

/-- After the use of a key the scheme has the key, if it accepts it, and the tweak of the gate,
whatever it had before. -/
theorem useKey_eq_ok {key : Bytes} {k k' : Keying} : useKey s gate key k = .ok k' ↔
    ∃ m, s.multiKey [key] = .ok m ∧ k' = ⟨some m, some ⟨gate⟩⟩ := by
  unfold useKey
  rw [bind_eq_ok]
  refine exists_congr fun m => and_congr mapError_eq_ok ?_
  rw [pure_eq_ok, Keying.setTweak_setKey]
  exact eq_comm

theorem keying_eq_ok {key : Bytes} {k : Keying} : keying s gate key = .ok k ↔
    ∃ m, s.multiKey [key] = .ok m ∧ k = ⟨some m, some ⟨gate⟩⟩ := useKey_eq_ok

/-- A key that opens a row has it: sentinel and payload are what encryption under the key makes of
zeros and of the output key. -/
theorem hasRow_of_opens {bytes key output : Bytes} {second : Bool} {outputSize : Nat}
    (hs : ∀ k, keying s gate key = .ok k → s.Permutes k) (hsize : outputSize ≤ s.cipherSize)
    (h : Opens s gate bytes outputSize key second output) :
    HasRow s gate bytes second key output := by
  have hfits : output.length ≤ s.cipherSize := by
    rw [h.length]
    exact hsize
  obtain ⟨k, hk, hopened, hpayload⟩ := h
  have law := (hs k hk).lawfulUnder
  obtain ⟨sentinel, hsentinelPart, hzeros⟩ := sentinel_of_opens law (opens_of_openedRows hopened).1
  obtain ⟨payload, hpart, hcipher⟩ := part?_of_payload? law hpayload
  rw [(hs k hk).encrypt_padTo hfits] at hcipher
  exact ⟨k, payload, sentinel, hk, hcipher, hzeros, hpart, hsentinelPart⟩

end

/-- The audit accepts exactly the tables that encryption makes for the output keys that it gives,
in either order of the rows, if the sentinels of the two input keys differ. Evaluation then gives
the same output keys. -/
theorem audit_accepts_exactly_encrypted_tables {s : Scheme}
    (hs : ∀ keys key, s.multiKey keys = .ok key → ∀ tweak, s.Permutes ⟨some key, some tweak⟩)
    {outputSize : Nat} (hsize : outputSize ≤ s.cipherSize) (gate : UInt32) (bytes : Bytes)
    (inputs outputs : Bytes × Bytes) :
    (audit s gate bytes inputs outputSize = .ok outputs ↔
      outputs.1.length = outputSize ∧ outputs.2.length = outputSize ∧
      sentinel s gate inputs.1 ≠ sentinel s gate inputs.2 ∧
      ∃ zeroSecond, table s gate zeroSecond inputs outputs = .ok bytes) ∧
    (audit s gate bytes inputs outputSize = .ok outputs →
      compute s gate bytes inputs.1 outputSize = .ok outputs.1 ∧
      compute s gate bytes inputs.2 outputSize = .ok outputs.2) := by
  have hpermutes : ∀ key k, keying s gate key = .ok k → s.Permutes k := by
    intro key k hk
    obtain ⟨m, hm, rfl⟩ := keying_eq_ok.1 hk
    exact hs [key] m hm ⟨gate⟩
  refine ⟨⟨fun h => ?_, ?_⟩, fun h => ?_⟩
  · obtain ⟨hlen, second, h0, h1⟩ := audit_eq_ok.1 h
    have hrow0 := hasRow_of_opens (hpermutes inputs.1) hsize h0
    have hrow1 := hasRow_of_opens (hpermutes inputs.2) hsize h1
    have htable := table_of_hasRow hlen hrow0 hrow1
    refine ⟨h0.length, h1.length, ?_, second, htable⟩
    exact (sentinelsDiffer_iff_of_table htable).1 (sentinelsDiffer_of_opens h0)
  · rintro ⟨hlen0, hlen1, hdiffer, second, htable⟩
    have hparts := (sentinelsDiffer_iff_of_table htable).2 hdiffer
    have hopens := opens_of_table_under (fun key k hk => (hpermutes key k hk).lawfulUnder)
      (by rwa [hlen0]) (by rwa [hlen1]) htable hparts
    rw [hlen0, hlen1] at hopens
    exact audit_eq_ok.2 ⟨(hasRow_of_table htable).1, second, hopens⟩
  · obtain ⟨hlen, second, h0, h1⟩ := audit_eq_ok.1 h
    exact ⟨compute_of_opens hlen h0, compute_of_opens hlen h1⟩

/-- A table that carries two keys of sixteen bytes to two keys of one byte. -/
theorem table_of_short_keys_is_accepted : 1 ≤ Scheme.block.cipherSize ∧
    ∃ bytes, table .block 5 true (Bytes.zeros 16, List.replicate 16 1) ([1], [2]) = .ok bytes ∧
      audit .block 5 bytes (Bytes.zeros 16, List.replicate 16 1) 1 = .ok ([1], [2]) ∧
      compute .block 5 bytes (Bytes.zeros 16) 1 = .ok [1] ∧
      compute .block 5 bytes (List.replicate 16 1) 1 = .ok [2] := by
  have hsome : (table .block 5 true (Bytes.zeros 16, List.replicate 16 1)
      ([1], [2])).toOption.isSome = true := by
    decide +kernel
  have hsentinels : (sentinel .block 5 (Bytes.zeros 16)).toOption ≠
      (sentinel .block 5 (List.replicate 16 1)).toOption := by
    decide +kernel
  obtain ⟨bytes, htable⟩ := Option.isSome_iff_exists.1 hsome
  rw [toOption_eq_some] at htable
  have hsize : 1 ≤ Scheme.cipherSize .block := by decide
  have haccepts := audit_accepts_exactly_encrypted_tables (s := .block)
    (fun _ key _ tweak => Scheme.permutes_block key tweak) hsize 5 bytes
    (Bytes.zeros 16, List.replicate 16 1) ([1], [2])
  have haudit := haccepts.1.2 ⟨rfl, rfl, fun h => hsentinels (congrArg _ h), true, htable⟩
  exact ⟨by decide, bytes, htable, haudit, haccepts.2 haudit⟩

end Garbling.IdentityGate
