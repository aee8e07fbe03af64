-- What the tables of a garbled circuit are for. They encode the circuit
-- for an offset and a label for 0 of every wire if each gate leads the
-- labels of any bits to the label of its own bit. Honest garbling makes
-- such tables, the audit accepts no others, and evaluation needs no more.
import Garbling.FreeXor.Evaluation
import Garbling.Proofs.Circuit.Valuation
import Garbling.Proofs.GateRows
import Garbling.Proofs.KeyArray.Choice

namespace Garbling

/-! ## Blocks in a row -/

theorem Block.many_flatMap_toBytes (blocks : List Block) :
    Block.many (blocks.flatMap Block.toBytes) = blocks := by
  have hpieces : ∀ blocks : List Block, Bytes.pieces Block.size blocks.length
      (blocks.flatMap Block.toBytes) = blocks.map Block.toBytes := by
    intro blocks
    induction blocks with
    | nil => rfl
    | cons b bs ih =>
      have hlen := Block.length_toBytes b
      rw [List.length_cons, Bytes.pieces, List.flatMap_cons, List.take_left' hlen,
        List.drop_left' hlen, ih, List.map_cons]
  have hcount : (blocks.flatMap Block.toBytes).length / Block.size = blocks.length := by
    simp only [List.length_flatMap, Block.length_toBytes, List.map_const', List.sum_replicate_nat]
    exact Nat.mul_div_cancel _ (by decide)
  rw [Block.many, Bytes.wholePieces, hcount, hpieces, List.map_map]
  simp [Function.comp_def]

theorem Block.flatMap_toBytes_pieces {bs : Bytes} {n : Nat} (h : bs.length = n * size) :
    (((List.range n).map fun i => ofBytes ((bs.drop (i * size)).take size)).flatMap toBytes) =
      bs := by
  have hblocks : ((List.range n).map fun i =>
      (ofBytes ((bs.drop (i * size)).take size)).toBytes) =
      (List.range n).map fun i => (bs.drop (i * size)).take size := by
    refine List.map_congr_left fun i hi => toBytes_ofBytes ?_
    exact Bytes.length_of_slice? (KeyArray.keyAt?_eq_some h (List.mem_range.1 hi))
  rw [List.flatMap_map, List.flatMap_def, hblocks, ← List.flatMap_def]
  exact flatMap_range_pieces h

/-- The blocks of a string of whole blocks, by position. -/
theorem Block.many_eq_map {bs : Bytes} {n : Nat} (h : bs.length = n * size) :
    many bs = (List.range n).map fun i => ofBytes ((bs.drop (i * size)).take size) := by
  have hblocks := many_flatMap_toBytes ((List.range n).map fun i =>
    ofBytes ((bs.drop (i * size)).take size))
  rwa [flatMap_toBytes_pieces h] at hblocks

namespace FreeXor

variable {G : Type}

/-! ## The invariant -/

/-- Both labels of a wire, as keys. -/
def labelPair (offset zero : Block) : Bytes := zero.toBytes ++ (zero ^^^ offset).toBytes

/-- Both keys of every input wire. -/
def inputPairs (c : FreeXor G) (offset : Block) (zero : Nat → Block) : Bytes :=
  (List.range c.inputCount).flatMap fun w => labelPair offset (zero w)

/-- Both keys of every output wire. -/
def outputPairs (c : FreeXor G) (offset : Block) (zero : Nat → Block) : Bytes :=
  c.circuit.outputs.flatMap fun w => labelPair offset (zero w)

/-- The wire at a position of the output. -/
def outputWire (c : FreeXor G) (position : Nat) : Nat := c.circuit.outputs.getD position 0

structure Encodes (c : FreeXor G) (offset : Block) (zero : Nat → Block) : Prop where
  signal : offset.signal = true
  gate : ∀ (g : Nat) gate, c.circuit.gates[g]? = some gate → ∀ bit : Nat → Bool,
    c.labelOf g (gate.map fun w => labelFor offset (zero w) (bit w)) =
      .ok (labelFor offset (zero (c.circuit.gateWire g)) (gate.map bit).bit)

/-- The entries of the translation table are the signals of the labels for 0. -/
def Translates (c : FreeXor G) (zero : Nat → Block) : Prop :=
  c.translation = c.circuit.outputs.map fun w => (zero w).signal.toUInt8

/-! ## The keys of an encoding -/

theorem inputCount_congr {G' : Type} {c : FreeXor G} {c' : FreeXor G'}
    (h : c'.circuit = c.circuit) : c'.inputCount = c.inputCount := by
  rw [inputCount, h]
  rfl

theorem outputCount_congr {G' : Type} {c : FreeXor G} {c' : FreeXor G'}
    (h : c'.circuit = c.circuit) : c'.outputCount = c.outputCount := by
  rw [outputCount, h]
  rfl

theorem outputs_eq_map_range (c : FreeXor G) :
    c.circuit.outputs = (List.range c.outputCount).map c.outputWire := by
  apply List.ext_getElem
  · simp [outputCount]
  · intro i h1 h2
    simp [outputWire, h1]

theorem outputPairs_eq (c : FreeXor G) (offset : Block) (zero : Nat → Block) :
    c.outputPairs offset zero =
      (List.range c.outputCount).flatMap fun j => labelPair offset (zero (c.outputWire j)) := by
  rw [outputPairs, outputs_eq_map_range, List.flatMap_map]

theorem length_labelPairs (offset : Block) (zero : Nat → Block) (n : Nat) :
    ((List.range n).flatMap fun w => labelPair offset (zero w)).length = 2 * n * keySize := by
  have hlen : ∀ w < n, (labelPair offset (zero w)).length = 2 * keySize := by
    intro w _
    rw [labelPair, List.length_append, Block.length_toBytes, Block.length_toBytes]
    rfl
  rw [length_flatMap_range hlen, ← Nat.mul_assoc, Nat.mul_comm n]

theorem length_inputPairs (c : FreeXor G) (offset : Block) (zero : Nat → Block) :
    (c.inputPairs offset zero).length = 2 * c.inputCount * keySize :=
  length_labelPairs offset zero _

theorem length_outputPairs (c : FreeXor G) (offset : Block) (zero : Nat → Block) :
    (c.outputPairs offset zero).length = 2 * c.outputCount * keySize := by
  rw [outputPairs_eq]
  exact length_labelPairs offset _ _

theorem keyFor_labelPairs {offset : Block} {zero : Nat → Block} {n w : Nat} {bit : Bool}
    (hw : w < n) :
    KeyArray.keyFor keySize ((List.range n).flatMap fun w => labelPair offset (zero w)) w bit =
      (labelFor offset (zero w) bit).toBytes :=
  KeyArray.keyFor_flatMap (fun w bit => (labelFor offset (zero w) bit).toBytes)
    (fun _ _ _ => Block.length_toBytes _) hw

/-- The keys of all input wires are those of some labels if the keys of each wire are. -/
theorem eq_inputPairs_iff {c : FreeXor G} {pairs : Bytes} {offset : Block} {zero : Nat → Block} :
    pairs = c.inputPairs offset zero ↔ pairs.length = 2 * c.inputCount * keySize ∧
      ∀ w < c.inputCount, ∀ bit, KeyArray.bitKeyAt? keySize pairs w bit =
        some (labelFor offset (zero w) bit).toBytes :=
  KeyArray.eq_flatMap_pairs_iff (fun w bit => (labelFor offset (zero w) bit).toBytes)
    fun _ _ _ => Block.length_toBytes _

/-- The keys of all input wires determine the offset and the labels for 0. -/
theorem labels_of_inputPairs {c : FreeXor G} {offset offset' : Block} {zero zero' : Nat → Block}
    (hwires : 0 < c.inputCount) (h : c.inputPairs offset zero = c.inputPairs offset' zero') :
    offset = offset' ∧ ∀ w < c.inputCount, zero w = zero' w := by
  have hlabels : ∀ w < c.inputCount, ∀ bit,
      labelFor offset (zero w) bit = labelFor offset' (zero' w) bit := by
    intro w hw bit
    have hkey := congrArg (KeyArray.keyFor keySize · w bit) h
    simp only [inputPairs, keyFor_labelPairs hw] at hkey
    exact Block.toBytes_injective hkey
  have hzero : ∀ w < c.inputCount, zero w = zero' w := fun w hw => hlabels w hw false
  have hone := hlabels 0 hwires true
  simp only [labelFor, if_true, hzero 0 hwires] at hone
  exact ⟨(BitVec.xor_right_inj _).1 hone, hzero⟩

theorem choose_labelPairs (offset : Block) (zero : Nat → Block) (n : Nat) (bit : Nat → Bool) :
    KeyArray.choose keySize n ((List.range n).flatMap fun w => labelPair offset (zero w)) bit =
      ((List.range n).map fun w => labelFor offset (zero w) (bit w)).flatMap Block.toBytes := by
  rw [KeyArray.choose, List.flatMap_map]
  simp only [List.flatMap_def]
  congr 1
  refine List.map_congr_left fun w hw => ?_
  exact keyFor_labelPairs (List.mem_range.1 hw)

/-- The keys of the output wires for the bits of a run. -/
theorem choose_outputPairs (c : FreeXor G) (offset : Block) (zero : Nat → Block)
    (bit : Nat → Bool) :
    KeyArray.choose keySize c.outputCount (c.outputPairs offset zero)
        (fun j => bit (c.outputWire j)) =
      (c.circuit.outputs.map fun w => labelFor offset (zero w) (bit w)).flatMap Block.toBytes := by
  rw [outputPairs_eq, choose_labelPairs, outputs_eq_map_range, List.map_map]
  rfl

/-! ## Evaluation -/

/-- On the keys for the bits of a run, evaluation gives the keys for its output bits. -/
theorem compute_choose {c : FreeXor G} {offset : Block} {zero : Nat → Block}
    (h : c.Encodes offset zero) (hg : c.garbled = true) {bit : Nat → Bool}
    (hbit : c.circuit.Carries bit) :
    c.compute (KeyArray.choose keySize c.inputCount (c.inputPairs offset zero) bit) =
      .ok (KeyArray.choose keySize c.outputCount (c.outputPairs offset zero)
        fun j => bit (c.outputWire j)) := by
  have hlabels : c.circuit.Consistent c.labelOf fun w => labelFor offset (zero w) (bit w) := by
    intro g gate hgate
    simp only [h.gate g gate hgate bit, hbit g gate hgate]
  have hlen := KeyArray.length_choose (length_inputPairs c offset zero) bit
  unfold compute
  rw [if_neg (by simp [hg]), if_neg (by simp [hlen]), inputPairs, choose_labelPairs,
    Block.many_flatMap_toBytes]
  simp only [inputCount, Circuit.propagate_of_consistent c.valid hlabels, ok_bind,
    Circuit.readOutputs?_valuesBelow c.valid]
  rw [choose_outputPairs]
  rfl

/-! ## Translation -/

/-- The signal of a key. -/
def keySignal (key : Bytes) : Bool := (Block.ofBytes key).signal

theorem toUInt8_xor (a b : Bool) : a.toUInt8 ^^^ b.toUInt8 = (a ^^ b).toUInt8 := by
  cases a <;> cases b <;> rfl

/-- The bits of some output keys: where the signal of a key is not that of the label for 0,
there is a one. -/
def shownBits (c : FreeXor G) (zero : Nat → Block) (output : Bytes) : List Bool :=
  (List.range c.outputCount).map fun wire =>
    keySignal ((output.drop (wire * keySize)).take keySize) ^^ (zero (c.outputWire wire)).signal

theorem getElem?_shownBits {c : FreeXor G} {zero : Nat → Block} {output : Bytes} {wire : Nat}
    (h : wire < c.outputCount) : (c.shownBits zero output)[wire]? =
      some (keySignal ((output.drop (wire * keySize)).take keySize) ^^
        (zero (c.outputWire wire)).signal) := by
  rw [shownBits, List.getElem?_map, List.getElem?_range h, Option.map_some]

theorem length_shownBits (c : FreeXor G) (zero : Nat → Block) (output : Bytes) :
    (c.shownBits zero output).length = c.outputCount := by
  rw [shownBits, List.length_map, List.length_range]

/-- Where all entries of the translation table are bits, each is added to the signal of its key. -/
theorem translate_of_entries {c : FreeXor G} {entry : Nat → Bool}
    (ht : c.translation = (List.range c.outputCount).map fun wire => (entry wire).toUInt8)
    {output : Bytes} (hlen : output.length = c.outputCount * keySize) :
    c.translate output = .ok ((List.range c.outputCount).map fun wire =>
      (keySignal ((output.drop (wire * keySize)).take keySize) ^^ entry wire).toUInt8) := by
  have hcount : c.translation.length = c.outputCount := by
    rw [ht, List.length_map, List.length_range]
  unfold translate
  refine check_bind_eq_ok.2 ⟨KeyArray.checkLength_eq_ok.2 hlen, ?_⟩
  refine guard_eq_ok.2 ⟨by simp [hcount], ?_⟩
  rw [pure_eq_ok, Block.many_eq_map hlen, ht, List.zipWith_map, List.zipWith_self]
  simp only [toUInt8_xor]
  rfl

/-- A translation adds the signal of each key to that of the label for 0. -/
theorem translate_eq_ok {c : FreeXor G} {zero : Nat → Block} (ht : c.Translates zero)
    {output bytes : Bytes} : c.translate output = .ok bytes ↔
      output.length = c.outputCount * keySize ∧
      (c.shownBits zero output).map Bool.toUInt8 = bytes := by
  have htranslation : c.translation = (List.range c.outputCount).map fun wire =>
      (zero (c.outputWire wire)).signal.toUInt8 := by
    rw [ht, outputs_eq_map_range, List.map_map]
    rfl
  have hbits : output.length = c.outputCount * keySize →
      c.translate output = .ok ((c.shownBits zero output).map Bool.toUInt8) := by
    intro hlen
    rw [translate_of_entries htranslation hlen, shownBits, List.map_map]
    rfl
  constructor
  · intro h
    have hlen : output.length = c.outputCount * keySize := by
      unfold translate at h
      exact KeyArray.checkLength_eq_ok.1 (check_bind_eq_ok.1 h).1
    exact ⟨hlen, Except.ok.inj ((hbits hlen).symm.trans h)⟩
  · rintro ⟨hlen, rfl⟩
    exact hbits hlen

/-- The keys for some bits show these bits. -/
theorem shownBits_choose {c : FreeXor G} {offset : Block} (h : offset.signal = true)
    (zero : Nat → Block) (bit : Nat → Bool) :
    c.shownBits zero (KeyArray.choose keySize c.outputCount (c.outputPairs offset zero)
      fun j => bit (c.outputWire j)) = c.circuit.outputs.map bit := by
  rw [outputs_eq_map_range, shownBits, List.map_map]
  refine List.map_congr_left fun wire hmem => ?_
  have hwire := List.mem_range.1 hmem
  rw [KeyArray.piece_choose (length_outputPairs c offset zero) hwire, outputPairs_eq,
    keyFor_labelPairs hwire, keySignal, Block.ofBytes_toBytes, signal_labelFor h,
    Bool.xor_comm (_ ^^ _), ← Bool.xor_assoc, Bool.xor_self, Bool.false_xor]
  rfl

theorem translate_choose {c : FreeXor G} {offset : Block} {zero : Nat → Block}
    (h : offset.signal = true) (ht : c.Translates zero) (bit : Nat → Bool) :
    c.translate (KeyArray.choose keySize c.outputCount (c.outputPairs offset zero)
      fun j => bit (c.outputWire j)) = .ok (c.circuit.outputs.map fun w => (bit w).toUInt8) := by
  refine (translate_eq_ok ht).2 ⟨KeyArray.length_choose (length_outputPairs c offset zero) _, ?_⟩
  rw [shownBits_choose h, List.map_map]
  rfl

theorem verifiedTranslate_choose {c : FreeXor G} {offset : Block} {zero : Nat → Block}
    (h : offset.signal = true) (ht : c.Translates zero) (bit : Nat → Bool) :
    c.verifiedTranslate (KeyArray.choose keySize c.outputCount (c.outputPairs offset zero)
      fun j => bit (c.outputWire j)) (c.outputPairs offset zero) =
      .ok (c.circuit.outputs.map fun w => (bit w).toUInt8) := by
  rw [verifiedTranslate, KeyArray.checkAllRecorded_choose (length_outputPairs c offset zero),
    ok_bind, translate_choose h ht]

end FreeXor

end Garbling
