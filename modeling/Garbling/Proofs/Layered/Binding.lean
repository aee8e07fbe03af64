-- What a verified translation says about the keys that it checked. The
-- keys that leave the circuit are checked, and those of the inner circuit
-- are translated. The result is bound to the checked keys exactly where
-- the inner keys show the signals that belong to them.
import Garbling.MultiKey.BlockScheme
import Garbling.Proofs.Layered.Soundness

namespace Garbling

/-! ## Without layers -/

namespace FreeXor

variable {G : Type}

theorem keySignal_outputPairs {c : FreeXor G} {offset : Block} {zero : Nat → Block}
    (hs : offset.signal = true) {wire : Nat} (hwire : wire < c.outputCount) (bit : Bool) :
    (KeyArray.bitKeyAt? keySize (c.outputPairs offset zero) wire bit).map keySignal =
      some ((zero (c.outputWire wire)).signal ^^ bit) := by
  rw [KeyArray.bitKeyAt?_eq_some (length_outputPairs c offset zero) hwire, outputPairs_eq,
    keyFor_labelPairs hwire, Option.map_some, keySignal, Block.ofBytes_toBytes, signal_labelFor hs]

/-- The bit at a position is the one whose key shows the same signal. -/
theorem getElem?_shownBits_iff {c : FreeXor G} {offset : Block} {zero : Nat → Block}
    {output : Bytes} (hs : offset.signal = true) (hlen : output.length = c.outputCount * keySize)
    {wire : Nat} (hwire : wire < c.outputCount) {bit : Bool} :
    (c.shownBits zero output)[wire]? = some bit ↔
      (KeyArray.keyAt? keySize output wire).map keySignal =
        (KeyArray.bitKeyAt? keySize (c.outputPairs offset zero) wire bit).map keySignal := by
  rw [getElem?_shownBits hwire, KeyArray.keyAt?_eq_some hlen hwire, Option.map_some,
    keySignal_outputPairs hs hwire, Option.some.injEq, Option.some.injEq]
  cases keySignal ((output.drop (wire * keySize)).take keySize) <;>
    cases (zero (c.outputWire wire)).signal <;> cases bit <;> decide

/-- Without layers, the keys that are checked are those that are translated, and they stand
for the bits that the translation gives. -/
theorem verified_translation_is_bound {c : FreeXor G} {pairs expected output bytes : Bytes}
    (h : c.audit pairs = .ok expected) (ht : c.verifyTranslation expected = true)
    (hv : c.verifiedTranslate output expected = .ok bytes) : ∃ bits : List Bool,
      bytes = bits.map Bool.toUInt8 ∧ bits.length = c.outputCount ∧
      ∀ (wire : Nat) bit, bits[wire]? = some bit →
        KeyArray.keyAt? keySize output wire = KeyArray.bitKeyAt? keySize expected wire bit := by
  obtain ⟨offset, zero, hencodes, _, rfl⟩ := encodes_of_audit h
  unfold verifiedTranslate at hv
  obtain ⟨_, hrecorded, hv⟩ := bind_eq_ok.1 hv
  obtain ⟨hlen, hbytes⟩ := (translate_eq_ok (translates_of_verifyTranslation ht)).1 hv
  refine ⟨c.shownBits zero output, hbytes.symm, length_shownBits c zero output, ?_⟩
  intro wire bit hbit
  have hwire : wire < c.outputCount := by
    rw [← length_shownBits c zero output]
    exact (List.getElem?_eq_some_iff.1 hbit).1
  obtain ⟨bit', hkey⟩ := KeyArray.of_checkAllRecorded hrecorded hwire
  have hshown := (getElem?_shownBits_iff hencodes.signal hlen hwire).2 (congrArg _ hkey)
  rw [hbit, Option.some.injEq] at hshown
  rw [hkey, hshown]

end FreeXor

namespace Layered

variable {P G : Type}

/-! ## The exact condition -/

/-- The keys outside and inside the output layer agree: at each position, the outer key is the
expected one for some bit, and the inner key shows the signal of the audited one for that bit. -/
def Agrees (c : Layered P G) (output : LayeredOutput) (expected audited : Bytes) : Prop :=
  ∀ wire < c.inner.outputCount, ∃ bit,
    KeyArray.keyAt? c.outputKeySize output.garbled wire =
      KeyArray.bitKeyAt? c.outputKeySize expected wire bit ∧
    (KeyArray.keyAt? FreeXor.keySize output.inner wire).map FreeXor.keySignal =
      (KeyArray.bitKeyAt? FreeXor.keySize audited wire bit).map FreeXor.keySignal

theorem of_verifyWithOutputs {c : Layered P G} {pairs expected : Bytes}
    (h : c.verifyWithOutputs pairs expected = true) : ∃ outputs offset zero,
      c.audit pairs = .ok outputs ∧ outputs.inner = c.inner.outputPairs offset zero ∧
      c.Encodes pairs expected offset zero ∧ c.inner.Translates zero := by
  obtain ⟨outputs, haudit, rfl, ht⟩ := verifyWithOutputs_eq_true.1 h
  obtain ⟨offset, zero, hencodes, hinner⟩ := encodes_of_audit haudit
  rw [verifyTranslation, hinner] at ht
  exact ⟨outputs, offset, zero, haudit, hinner, hencodes,
    FreeXor.translates_of_verifyTranslation ht⟩

/-- A circuit that gives its one input bit back, with tables and a translation table. -/
def bareWire : Layered (StreamGenerator .aesCounter) (StreamGenerator .aesCounter) where
  inner := { circuit := ⟨[1], [], [0]⟩, valid := by decide, generator := {}, translation := [0],
             garbled := true }
  scheme := .block
  generator := {}
  garbled := true

-- the block 0 as the key for 0, and the block 1 as the key for 1
def bareWireKeys : Bytes := Bytes.zeros 16 ++ [1] ++ Bytes.zeros 15

/-- For an audited circuit, a verified translation gives bits, and the checked keys stand for
these bits if and only if the keys outside and inside the output layer agree. -/
theorem verified_translation_is_bound_iff_the_keys_agree {c : Layered P G} {pairs expected : Bytes}
    (h : c.verifyWithOutputs pairs expected = true) {output : LayeredOutput} {bytes : Bytes}
    (hv : c.verifiedTranslate output expected = .ok bytes) : ∃ bits outputs,
      bytes = bits.map Bool.toUInt8 ∧ bits.length = c.inner.outputCount ∧
      c.audit pairs = .ok outputs ∧
      (c.ShowsBits output expected bits ↔ c.Agrees output expected outputs.inner) := by
  obtain ⟨outputs, offset, zero, haudit, hinner, hencodes, ht⟩ := of_verifyWithOutputs h
  unfold verifiedTranslate at hv
  obtain ⟨_, _, hv⟩ := bind_eq_ok.1 hv
  obtain ⟨hlen, hbytes⟩ := (FreeXor.translate_eq_ok ht).1 hv
  refine ⟨c.inner.shownBits zero output.inner, outputs, hbytes.symm,
    FreeXor.length_shownBits _ _ _, haudit, ?_⟩
  rw [hinner]
  constructor
  · intro hshows wire hwire
    obtain ⟨bit, hbit⟩ : ∃ bit, (c.inner.shownBits zero output.inner)[wire]? = some bit :=
      ⟨_, FreeXor.getElem?_shownBits hwire⟩
    obtain ⟨key, houter, hexpected⟩ := hshows wire bit hbit
    exact ⟨bit, houter.trans hexpected.symm,
      (FreeXor.getElem?_shownBits_iff hencodes.inner.signal hlen hwire).1 hbit⟩
  · intro hagrees wire bit hbit
    have hwire : wire < c.inner.outputCount := by
      rw [← FreeXor.length_shownBits c.inner zero output.inner]
      exact (List.getElem?_eq_some_iff.1 hbit).1
    obtain ⟨bit', houter, hsignal⟩ := hagrees wire hwire
    -- the inner key shows only one bit
    have hshown := (FreeXor.getElem?_shownBits_iff hencodes.inner.signal hlen hwire).2 hsignal
    rw [hbit, Option.some.injEq] at hshown
    subst hshown
    have hexpected : KeyArray.bitKeyAt? c.outputKeySize expected wire bit = some _ :=
      KeyArray.bitKeyAt?_eq_some hencodes.outputLength hwire
    exact ⟨_, houter.trans hexpected, hexpected⟩

theorem honest_wire_output_is_bound :
    let one : LayeredOutput := ⟨[1] ++ Bytes.zeros 15, [1] ++ Bytes.zeros 15⟩
    bareWire.verifyWithOutputs bareWireKeys bareWireKeys = true ∧
    bareWire.verifiedTranslate one bareWireKeys = .ok [1] ∧
    ∃ bits outputs, [1] = bits.map Bool.toUInt8 ∧ bits.length = bareWire.inner.outputCount ∧
      bareWire.audit bareWireKeys = .ok outputs ∧
      (bareWire.ShowsBits one bareWireKeys bits ↔
        bareWire.Agrees one bareWireKeys outputs.inner) := by
  have haudit : bareWire.verifyWithOutputs bareWireKeys bareWireKeys = true := by decide +kernel
  exact ⟨haudit, rfl, verified_translation_is_bound_iff_the_keys_agree haudit rfl⟩

/-! ## A translation that is not bound -/

-- the key for 0 outside, and that for 1 inside
def forgedOutput : LayeredOutput := ⟨Bytes.zeros 16, [1] ++ Bytes.zeros 15⟩

/-- The circuit passes its audit, and yet a forged output passes the check of its keys and is
translated to another bit than that of the checked key. -/
theorem forged_output_passes_the_check :
    bareWire.verifyWithOutputs bareWireKeys bareWireKeys = true ∧
    bareWire.verifiedTranslate forgedOutput bareWireKeys = .ok [1] ∧
    KeyArray.keyAt? bareWire.outputKeySize forgedOutput.garbled 0 =
      KeyArray.bitKeyAt? bareWire.outputKeySize bareWireKeys 0 false ∧
    ¬ bareWire.ShowsBits forgedOutput bareWireKeys [true] := by
  refine ⟨by decide +kernel, rfl, by decide, ?_⟩
  intro h
  obtain ⟨key, houter, hexpected⟩ := h 0 true rfl
  rw [← hexpected] at houter
  exact absurd houter (by decide)

end Layered

end Garbling
