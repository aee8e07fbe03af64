-- The audit is sound through the layers: wherever the tables of a circuit
-- are from, if it passes the audit for some keys then evaluation on these
-- keys computes the plain circuit.
import Garbling.Proofs.Layered.Completeness

namespace Garbling.Layered

variable {P G : Type}

/-! ## What the audit accepts -/

/-- The layers and the tables lead the audited keys to the keys that the audit gives. -/
theorem encodes_of_audit {c : Layered P G} {pairs : Bytes} {outputs : AuditedOutputs}
    (h : c.audit pairs = .ok outputs) : ∃ offset zero, c.Encodes pairs outputs.outer offset zero ∧
      outputs.inner = c.inner.outputPairs offset zero := by
  obtain ⟨_, hin, hinner, hout⟩ := audit_eq_ok.1 h
  obtain ⟨offset, zero, hencodes, rfl, houtputs⟩ := FreeXor.encodes_of_audit hinner
  rw [houtputs] at hout
  refine ⟨offset, zero, ⟨hencodes, ?_, ?_⟩, houtputs⟩
  · refine Side.leads_of_audit hin inputKeySize_of_layered (fun _ => rfl) ?_
    intro hlayered
    simp [inputKeySize, sideKeySize, hlayered]
  · refine Side.leads_of_audit hout (fun _ => rfl) outputKeySize_of_layered ?_
    intro hlayered
    simp [outputKeySize, sideKeySize, hlayered]

/-- A circuit that passes the audit with its translation table. -/
theorem of_verify {c : Layered P G} {pairs : Bytes} (h : c.verify pairs = true) :
    ∃ outputs offset zero, c.internalVerify pairs = some outputs ∧
      c.Encodes pairs outputs offset zero ∧ c.inner.Translates zero := by
  obtain ⟨outputs, haudit, _, ht⟩ := verify_eq_true.1 h
  obtain ⟨offset, zero, hencodes, hinner⟩ := encodes_of_audit haudit
  rw [verifyTranslation, hinner] at ht
  exact ⟨outputs.outer, offset, zero, internalVerify_eq_some.2 ⟨_, haudit⟩, hencodes,
    FreeXor.translates_of_verifyTranslation ht⟩

/-! ## Audited circuits compute the plain circuit -/

/-- Whatever operations have led to a circuit with tables, if it passes the audit for some keys
then it computes the plain circuit from these keys to the keys that the audit gives. -/
theorem audited_tables_compute_the_plain_circuit [Generator P] [Generator G] {inner : FreeXor G}
    {scheme : Scheme} {generator : P} {start : Layered P G}
    (hstart : ofInner inner scheme generator = .ok start) {ops : List Operation}
    (hsupplied : start.Supplied ops) {pairs : Bytes} (h : (start.run ops).verify pairs = true) :
    (start.run ops).inner.circuit = inner.circuit ∧
      ∃ outputs, (start.run ops).internalVerify pairs = some outputs ∧
        (start.run ops).ComputesPlainly pairs outputs := by
  have hnew : start.inner = inner ∧ start.garbled = false := by
    unfold ofInner at hstart
    split at hstart
    · cases hstart
      exact ⟨rfl, rfl⟩
    · cases hstart
  obtain ⟨hfollows, hinner, hgarbled⟩ := run_keeps (c := start) (by simp [hnew.2]) ops
  have hg := hgarbled.2 (.inr hsupplied)
  obtain ⟨outputs, offset, zero, hverify, hencodes, ht⟩ := of_verify h
  refine ⟨?_, outputs, hverify, hencodes.computesPlainly hg (hinner hg) ht⟩
  rw [hfollows.circuit, hnew.1]

theorem audited_negation_computes_negation : ∃ ops pairs,
    newNegation.Supplied ops ∧ (newNegation.run ops).verify pairs = true ∧
      ∃ outputs, (newNegation.run ops).internalVerify pairs = some outputs ∧
        (newNegation.run ops).ComputesPlainly pairs outputs := by
  obtain ⟨keys, c', hgarble, hin, hout⟩ := garble_pinnedNegation
  obtain ⟨hfollows, _, _, _, _, honest⟩ :=
    (Garbles.random 7 _ hgarble).honest ready_pinnedNegation.1 ready_pinnedNegation.2
  have hscheme : c'.scheme = .block := hfollows.scheme
  have hwires : 0 < c'.inner.inputCount := by
    rw [FreeXor.inputCount, hfollows.circuit]
    decide
  rw [← hscheme] at hin hout
  let pins : List Operation := [.setInputKeys negationKeys, .setOutputKeys negationKeys]
  let ops : List Operation := pins ++ [.garble 7 fun _ => true]
  have hrun : newNegation.run ops = c' := congrArg Prod.snd hgarble
  have hsupplied : newNegation.Supplied ops :=
    ⟨pins, _, [], rfl, rfl, congrArg (fun outcome => (succeeded outcome).1) hgarble⟩
  have hverify : (newNegation.run ops).verify keys.inputKeys = true := by
    rw [hrun]
    exact honest.verify (hscheme ▸ Scheme.lawful_block) hin hout hwires
  obtain ⟨_, h⟩ := audited_tables_compute_the_plain_circuit
    (show ofInner newNegation.inner .block {} = .ok newNegation from rfl) hsupplied hverify
  exact ⟨ops, keys.inputKeys, hsupplied, hverify, h⟩

end Garbling.Layered
