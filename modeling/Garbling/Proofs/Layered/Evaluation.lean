-- Evaluation and the audit through the layers. If the layers lead the keys
-- outside to keys that the inner tables encode the circuit for, evaluation
-- stays on the keys for the bits of the plain circuit and translates to them.
import Garbling.Proofs.FreeXor.Correctness
import Garbling.Proofs.Layered.Bridge

namespace Garbling.Layered

variable {P G : Type}

/-! ## The layers of a circuit -/

theorem inputKeySize_of_layered {c : Layered P G} (h : c.input.layered = true) :
    c.inputKeySize = c.scheme.cipherSize := by
  rw [inputKeySize, sideKeySize, if_pos h]

theorem outputKeySize_of_layered {c : Layered P G} (h : c.output.layered = true) :
    c.outputKeySize = c.scheme.cipherSize := by
  rw [outputKeySize, sideKeySize, if_pos h]

/-- Evaluation goes through the input side, the inner circuit and the output side. -/
theorem compute_eq {c : Layered P G} {keys : Bytes} (hg : c.garbled = true)
    (hlen : keys.length = c.inner.inputCount * c.inputKeySize) : c.compute keys = do
      let innerKeys ← c.input.compute c.scheme c.inner.inputCount keys c.scheme.cipherSize
        FreeXor.keySize
      let inner ← c.inner.compute innerKeys
      let garbled ← c.output.compute c.scheme c.inner.outputCount inner FreeXor.keySize
        c.scheme.cipherSize
      return { garbled, inner } := by
  unfold compute
  simp only [hg, Bool.not_true, Bool.false_eq_true, if_false, hlen, ne_eq, not_true]
  refine (Side.active_bind_compute _ _ _ _ _ _ _).trans ?_
  refine bind_congr fun innerKeys => bind_congr fun inner => ?_
  exact Side.active_bind_compute _ _ _ _ _ _ _

/-- An evaluation that succeeds had tables, and keys of the right length. -/
theorem guards_of_compute {c : Layered P G} {keys : Bytes} {output : LayeredOutput}
    (h : c.compute keys = .ok output) :
    c.garbled = true ∧ keys.length = c.inner.inputCount * c.inputKeySize := by
  unfold compute at h
  obtain ⟨hg, h⟩ := guard_eq_ok.1 h
  obtain ⟨hlen, _⟩ := guard_eq_ok.1 h
  exact ⟨by simpa using hg, Decidable.not_not.1 hlen⟩

/-! ## The audit -/

/-- The audit goes through the input side, the inner circuit and the output side. -/
theorem audit_eq (c : Layered P G) (pairs : Bytes) : c.audit pairs = do
    let innerPairs ← c.input.audit c.scheme c.inner.inputCount pairs c.scheme.cipherSize
      FreeXor.keySize
    let inner ← c.inner.audit innerPairs
    let outer ← c.output.audit c.scheme c.inner.outputCount inner FreeXor.keySize
      c.scheme.cipherSize
    return { inner, outer } := by
  unfold audit
  refine (Side.active_bind_audit _ _ _ _ _ _ _).trans ?_
  refine bind_congr fun innerPairs => bind_congr fun inner => ?_
  exact Side.active_bind_audit _ _ _ _ _ _ _

theorem audit_eq_ok {c : Layered P G} {pairs : Bytes} {outputs : AuditedOutputs} :
    c.audit pairs = .ok outputs ↔ ∃ innerPairs,
      c.input.audit c.scheme c.inner.inputCount pairs c.scheme.cipherSize FreeXor.keySize =
        .ok innerPairs ∧
      c.inner.audit innerPairs = .ok outputs.inner ∧
      c.output.audit c.scheme c.inner.outputCount outputs.inner FreeXor.keySize
        c.scheme.cipherSize = .ok outputs.outer := by
  rw [audit_eq, bind_eq_ok]
  refine exists_congr fun innerPairs => and_congr_right fun _ => ?_
  constructor
  · intro h
    obtain ⟨inner, hinner, h⟩ := bind_eq_ok.1 h
    obtain ⟨outer, hout, h⟩ := bind_eq_ok.1 h
    have houtputs := pure_eq_ok.1 h
    subst houtputs
    exact ⟨hinner, hout⟩
  · rintro ⟨hinner, hout⟩
    rw [hinner, ok_bind, hout]
    rfl

theorem internalVerify_eq_some {c : Layered P G} {pairs outputs : Bytes} :
    c.internalVerify pairs = some outputs ↔
      ∃ inner, c.audit pairs = .ok { inner, outer := outputs } := by
  unfold internalVerify
  rcases c.audit pairs with e | ⟨inner, outer⟩ <;> simp [Except.toOption]

/-- The keys that leave the circuit have to be the pinned ones, if there are any. -/
theorem verify_eq_true {c : Layered P G} {pairs : Bytes} :
    c.verify pairs = true ↔ ∃ outputs, c.audit pairs = .ok outputs ∧
      (∀ pinned ∈ c.output.pinned, outputs.outer = pinned) ∧
      c.verifyTranslation outputs.inner = true := by
  unfold verify
  rcases c.audit pairs with e | outputs
  · simp
  · cases c.output.pinned with
    | none => simp
    | some pinned => simp [eq_comm (a := pinned)]

theorem verifyWithOutputs_eq_true {c : Layered P G} {pairs expected : Bytes} :
    c.verifyWithOutputs pairs expected = true ↔ ∃ outputs, c.audit pairs = .ok outputs ∧
      outputs.outer = expected ∧ c.verifyTranslation outputs.inner = true := by
  unfold verifyWithOutputs
  rcases c.audit pairs with e | outputs <;> simp

/-! ## The invariant -/

/-- The layers lead from the pairs of keys outside to an encoding, and on to outer pairs. -/
structure Encodes (c : Layered P G) (inputPairs outputPairs : Bytes) (offset : Block)
    (zero : Nat → Block) : Prop where
  inner : c.inner.Encodes offset zero
  input : c.input.Leads c.scheme c.inner.inputCount ⟨inputPairs, c.inputKeySize⟩
    ⟨c.inner.inputPairs offset zero, FreeXor.keySize⟩
  output : c.output.Leads c.scheme c.inner.outputCount
    ⟨c.inner.outputPairs offset zero, FreeXor.keySize⟩ ⟨outputPairs, c.outputKeySize⟩

section

variable {c : Layered P G} {inputPairs outputPairs : Bytes} {offset : Block} {zero : Nat → Block}

theorem Encodes.inputLength (h : c.Encodes inputPairs outputPairs offset zero) :
    inputPairs.length = 2 * c.inner.inputCount * c.inputKeySize :=
  h.input.sourceLength (FreeXor.length_inputPairs _ _ _)

theorem Encodes.outputLength (h : c.Encodes inputPairs outputPairs offset zero) :
    outputPairs.length = 2 * c.inner.outputCount * c.outputKeySize :=
  h.output.targetLength (FreeXor.length_outputPairs _ _ _)

/-- On the keys for the bits of a run, evaluation gives the keys for its output bits, outside
and inside the output layer. -/
theorem compute_choose (h : c.Encodes inputPairs outputPairs offset zero) (hg : c.garbled = true)
    (hinner : c.inner.garbled = true) {bit : Nat → Bool} (hbit : c.inner.circuit.Carries bit) :
    c.compute (KeyArray.choose c.inputKeySize c.inner.inputCount inputPairs bit) =
      .ok ⟨KeyArray.choose c.outputKeySize c.inner.outputCount outputPairs
          fun j => bit (c.inner.outputWire j),
        KeyArray.choose FreeXor.keySize c.inner.outputCount (c.inner.outputPairs offset zero)
          fun j => bit (c.inner.outputWire j)⟩ := by
  have hin := h.input.compute inputKeySize_of_layered (fun _ => rfl) bit
  have hout := h.output.compute (fun _ => rfl) outputKeySize_of_layered
    fun j => bit (c.inner.outputWire j)
  have hmid := FreeXor.compute_choose h.inner hinner hbit
  unfold Layer.Keys.choose at hin hout
  rw [compute_eq hg (KeyArray.length_choose h.inputLength bit), hin, ok_bind, hmid, ok_bind, hout]
  rfl

/-- The key at each position of an output stands for the bit there. -/
def ShowsBits (c : Layered P G) (output : LayeredOutput) (pairs : Bytes) (bits : List Bool) :
    Prop :=
  ∀ (j : Nat) bit, bits[j]? = some bit →
    ∃ key, KeyArray.keyAt? c.outputKeySize output.garbled j = some key ∧
      KeyArray.bitKeyAt? c.outputKeySize pairs j bit = some key

/-- For any bits of the parties, evaluation on the keys that they send gives the keys for the
bits of the plain circuit, and both translations give these bits. -/
def ComputesPlainly (c : Layered P G) (inputPairs outputPairs : Bytes) : Prop :=
  ∀ inputs : List Bytes, inputs.map List.length = c.inner.circuit.inputs →
    ∃ input output bits, c.garbledInputs inputs inputPairs = .ok input ∧
      c.compute input = .ok output ∧
      c.inner.circuit.eval (FreeXor.inputBits inputs) = some bits ∧
      c.ShowsBits output outputPairs bits ∧ c.translate output = .ok (bits.map Bool.toUInt8) ∧
      c.verifiedTranslate output outputPairs = .ok (bits.map Bool.toUInt8)

theorem Encodes.computesPlainly (h : c.Encodes inputPairs outputPairs offset zero)
    (hg : c.garbled = true) (hinner : c.inner.garbled = true) (ht : c.inner.Translates zero) :
    c.ComputesPlainly inputPairs outputPairs := by
  intro inputs hinputs
  obtain ⟨bit, hbit, hbits, heval⟩ := FreeXor.exists_run c.inner.valid hinputs
  have htranslate := FreeXor.translate_choose h.inner.signal ht bit
  refine ⟨_, _, _, garbledInputs_eq_ok hinputs hbits h.inputLength, compute_choose h hg hinner hbit,
    heval, ?_, ?_, ?_⟩
  · intro j b hj
    have hlt : j < c.inner.outputCount := by
      have := (List.getElem?_eq_some_iff.1 hj).1
      rwa [List.length_map] at this
    have hb : b = bit (c.inner.outputWire j) := by
      rw [FreeXor.outputs_eq_map_range, List.map_map, List.getElem?_map, List.getElem?_range hlt,
        Option.map_some, Option.some.injEq] at hj
      exact hj.symm
    subst hb
    have hlen := h.outputLength
    exact ⟨_, KeyArray.keyAt?_choose hlen hlt, KeyArray.bitKeyAt?_eq_some hlen hlt⟩
  · rw [translate, htranslate, List.map_map]
    rfl
  · rw [verifiedTranslate, KeyArray.checkAllRecorded_choose h.outputLength, ok_bind, translate,
      htranslate, List.map_map]
    rfl

end

end Garbling.Layered
