-- What each party gets for its bits, and what all get together. The wires
-- of the parties follow one another, so the parts tile the garbled input:
-- wire by wire the key for the bit, and as many bytes as evaluation takes.
import Garbling.Proofs.EvaluationErrors
import Garbling.Proofs.Parties

namespace Garbling

/-! ## The wires of a party -/

namespace Circuit

/-- The first input wire of a party; parties are counted from 1. -/
def firstWire (c : Circuit) (party : Nat) : Nat :=
  (c.inputs.take (party - 1)).foldr (· + ·) 0

/-- The number of input wires of a party. -/
def wiresOf (c : Circuit) (party : Nat) : Nat := c.inputs.getD (party - 1) 0

/-- A run begins where those before it end. -/
theorem getElem?_wireRuns (next : Nat) (counts : List Nat) (i : Nat) :
    (wireRuns next counts)[i]? =
      counts[i]?.map fun n => List.range' (next + (counts.take i).foldr (· + ·) 0) n := by
  induction counts generalizing next i with
  | nil => rfl
  | cons n ns ih =>
    cases i with
    | zero => rfl
    | succ i =>
      rw [wireRuns, List.getElem?_cons_succ, List.getElem?_cons_succ, ih, List.take_succ_cons,
        List.foldr_cons, Nat.add_assoc]

theorem flatten_wireRuns (next : Nat) (counts : List Nat) :
    (wireRuns next counts).flatten = List.range' next (counts.foldr (· + ·) 0) := by
  induction counts generalizing next with
  | nil => rfl
  | cons n ns ih =>
    rw [wireRuns, List.flatten_cons, ih, List.foldr_cons, List.range'_append_1]

/-- What a party gets for its bits out of an array of pairs: the keys of its own wires. It is
checked that there is such a party, then the number of bits and then the array. -/
def partyInput (c : Circuit) (size : Nat) (bits pairs : Bytes) (party : Nat) :
    Except Error Bytes :=
  if party = 0 ∨ c.inputs.length < party then
    .error (.noSuchParty party)
  else if bits.length ≠ c.wiresOf party then
    .error (.wrongInputSize (c.wiresOf party) bits.length)
  else if pairs.length ≠ 2 * c.inputCount * size then
    .error (.wrongKeySize (2 * c.inputCount * size) pairs.length)
  else
    .ok ((bits.zipIdx (c.firstWire party)).flatMap fun (bit, wire) =>
      KeyArray.keyFor size pairs wire (bit != 0))

end Circuit

theorem FreeXor.partyWires_eq {G : Type} (c : FreeXor G) (party : Nat) :
    c.partyWires party = if party = 0 ∨ c.circuit.inputs.length < party then
      .error (.noSuchParty party)
    else
      .ok (List.range' (c.circuit.firstWire party) (c.circuit.wiresOf party)) := by
  cases party with
  | zero => rfl
  | succ i =>
    have hruns : c.circuit.partyWires[i]? = c.circuit.inputs[i]?.map fun n =>
        List.range' (c.circuit.firstWire (i + 1)) n := by
      rw [Circuit.partyWires, Circuit.getElem?_wireRuns, Nat.zero_add]
      rfl
    simp only [partyWires, hruns]
    by_cases hi : i < c.circuit.inputs.length
    · rw [if_neg (by omega), Circuit.wiresOf, List.getD_eq_getElem?_getD, Nat.add_sub_cancel,
        List.getElem?_eq_getElem hi]
      rfl
    · rw [if_pos (by omega), List.getElem?_eq_none (by omega)]
      rfl

/-- All wires of the parties, one party after the other, are the input wires in order. -/
theorem FreeXor.mapM_partyWires {G : Type} (c : FreeXor G) :
    ((List.range c.partyCount).mapM fun i => c.partyWires (i + 1)) = .ok c.circuit.partyWires := by
  refine mapM_range_eq_ok.2 ⟨Circuit.length_wireRuns _ _, fun i hi => ?_⟩
  simp only [partyWires, List.getElem?_eq_getElem hi]

/-! ## The keys of a party -/

/-- A choice of keys fails for the number of bits first, and then for the length of the array. -/
theorem KeyArray.select_eq {size wires : Nat} {bits pairs : Bytes} {positions : List Nat}
    (hpositions : ∀ w ∈ positions, w < wires) : select size wires bits pairs positions =
      if bits.length ≠ positions.length then
        .error (.wrongInputSize positions.length bits.length)
      else if pairs.length ≠ 2 * wires * size then
        .error (.wrongKeySize (2 * wires * size) pairs.length)
      else
        .ok ((bits.zip positions).flatMap fun (bit, wire) =>
          keyFor size pairs wire (bit != 0)) := by
  by_cases hbits : bits.length = positions.length
  · rw [if_neg (not_not_intro hbits)]
    by_cases hpairs : pairs.length = 2 * wires * size
    · rw [if_neg (not_not_intro hpairs), select_eq_ok hbits hpairs hpositions]
    · unfold select checkLength
      rw [if_neg (not_not_intro hbits), if_neg hpairs, if_pos hpairs]
      rfl
  · unfold select
    rw [if_pos hbits, if_pos hbits]
    rfl

/-- The wires of a party are looked up, and then their keys. -/
theorem Circuit.partyInput_eq {G : Type} (c : FreeXor G) (size : Nat) (bits pairs : Bytes)
    (party : Nat) : c.partyWires party >>= KeyArray.select size c.inputCount bits pairs =
      c.circuit.partyInput size bits pairs party := by
  have hwires : ∀ wires, c.partyWires party = .ok wires → ∀ w ∈ wires, w < c.inputCount :=
    fun _ => FreeXor.lt_of_mem_partyWires
  rw [FreeXor.partyWires_eq] at hwires ⊢
  unfold partyInput
  split
  · rfl
  · rename_i hparty
    rw [if_neg hparty] at hwires
    rw [ok_bind, KeyArray.select_eq (hwires _ rfl), List.length_range', FreeXor.inputCount]
    by_cases hbits : bits.length = c.circuit.wiresOf party
    · rw [← hbits, ← List.zipIdx_eq_zip_range']
    · rw [if_pos hbits, if_pos hbits]

/-! ## The keys of all parties -/

/-- Parties that are sent the keys for their bits out of arrays of keys of one size. Each is sent
the keys of its own wires, and together they have one key for each input wire. -/
structure Tiles (circuit : Circuit) (size : Nat)
    (send : Bytes → Bytes → Nat → Except Error Bytes) : Prop where
  party : ∀ bits pairs party, send bits pairs party = circuit.partyInput size bits pairs party
  all : ∀ inputs pairs, inputs.map List.length = circuit.inputs →
    pairs.length = 2 * circuit.inputCount * size →
      ∃ keys, joined (fun bits party => send bits pairs party) inputs = .ok keys ∧
        keys.length = circuit.inputCount * size ∧
        ∀ (wire : Nat) bit, inputs.flatten[wire]? = some bit → ∃ key,
          KeyArray.keyAt? size keys wire = some key ∧
          KeyArray.bitKeyAt? size pairs wire (bit != 0) = some key

/-- It is enough that the parts are a choice of keys whenever the bits are those of the wires. -/
theorem Tiles.of_choose {circuit : Circuit} {size : Nat}
    {send : Bytes → Bytes → Nat → Except Error Bytes}
    (hparty : ∀ bits pairs party, send bits pairs party = circuit.partyInput size bits pairs party)
    (hall : ∀ inputs pairs (bit : Nat → Bool), inputs.map List.length = circuit.inputs →
      inputs.flatten.map (· != 0) = (List.range circuit.inputCount).map bit →
      pairs.length = 2 * circuit.inputCount * size →
        joined (fun bits party => send bits pairs party) inputs =
          .ok (KeyArray.choose size circuit.inputCount pairs bit)) : Tiles circuit size send := by
  refine ⟨hparty, fun inputs pairs hinputs hpairs => ?_⟩
  have hlen : inputs.flatten.length = circuit.inputCount := by
    rw [List.length_flatten, hinputs, Circuit.inputCount, List.sum]
  let bit : Nat → Bool := fun wire => inputs.flatten.getD wire 0 != 0
  have hbit : inputs.flatten.map (· != 0) = (List.range circuit.inputCount).map bit := by
    apply List.ext_getElem
    · rw [List.length_map, List.length_map, List.length_range, hlen]
    · intro i h1 h2
      have hi : i < inputs.flatten.length := by rwa [List.length_map] at h1
      simp only [List.getElem_map, List.getElem_range, bit, List.getD_eq_getElem?_getD,
        List.getElem?_eq_getElem hi, Option.getD_some]
  refine ⟨_, hall inputs pairs bit hinputs hbit hpairs, KeyArray.length_choose hpairs bit, ?_⟩
  intro wire byte hbyte
  have hwire : wire < circuit.inputCount := by
    rw [← hlen]
    exact (List.getElem?_eq_some_iff.1 hbyte).1
  have hsame : bit wire = (byte != 0) := by
    simp only [bit, List.getD_eq_getElem?_getD, hbyte, Option.getD_some]
  refine ⟨_, KeyArray.keyAt?_choose hpairs hwire, ?_⟩
  rw [KeyArray.bitKeyAt?_eq_some hpairs hwire, hsame]

theorem FreeXor.tiles {G : Type} (c : FreeXor G) : Tiles c.circuit keySize c.garbledInput := by
  refine .of_choose (Circuit.partyInput_eq c keySize) fun inputs pairs bit hinputs hbit hpairs => ?_
  exact c.garbledInputs_eq_ok hinputs hbit hpairs

theorem Layered.tiles {P G : Type} (c : Layered P G) :
    Tiles c.inner.circuit c.inputKeySize c.garbledInput := by
  refine .of_choose ?_ fun inputs pairs bit hinputs hbit hpairs => ?_
  · intro bits pairs party
    rw [garbledInput_eq, Circuit.partyInput_eq]
  · exact garbledInputs_eq_ok hinputs hbit hpairs

/-! ## With and without layers -/

/-- The wires of the parties make up the input wires in order. With layers or without, every party
is sent the keys of its own wires or the error for what is wrong first, and the parts make an
array with the key of each wire for its bit, of the one length that evaluation takes. Where the
sizes of the keys agree, the search for the positions finds the same keys. -/
theorem party_inputs_tile_the_garbled_input {P G : Type} :
    (∀ c : FreeXor G,
      (∃ wires, (List.range c.partyCount).mapM (fun i => c.partyWires (i + 1)) = .ok wires ∧
        wires.map List.length = c.circuit.inputs ∧ wires.flatten = List.range c.inputCount) ∧
      Tiles c.circuit FreeXor.keySize c.garbledInput ∧
      ∀ keys, (∃ m n, c.compute keys = .error (.notAllInputsSet m n)) ↔
        c.garbled = true ∧ keys.length ≠ c.inputCount * FreeXor.keySize) ∧
    ∀ c : Layered P G,
      Tiles c.inner.circuit c.inputKeySize c.garbledInput ∧
      (∀ keys, (∃ m n, c.compute keys = .error (.notAllInputsSet m n)) ↔
        c.garbled = true ∧ keys.length ≠ c.inner.inputCount * c.inputKeySize) ∧
      (c.inputKeySize = FreeXor.keySize → ∀ bits pairs party,
        c.garbledInput bits pairs party = c.inner.garbledInput bits pairs party) := by
  refine ⟨fun c => ⟨?_, c.tiles, c.compute_eq_notAllInputsSet⟩,
    fun c => ⟨c.tiles, c.compute_eq_notAllInputsSet, ?_⟩⟩
  · refine ⟨_, c.mapM_partyWires, Circuit.map_length_wireRuns _ _, ?_⟩
    rw [Circuit.partyWires, Circuit.flatten_wireRuns, List.range_eq_range']
    rfl
  · intro hsize bits pairs party
    rw [Layered.garbledInput_eq, hsize]
    rfl

end Garbling
