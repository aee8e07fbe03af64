-- Honest garbling is correct: the tables encode the circuit, whatever
-- labels were drawn, and so evaluation on the keys that the parties send
-- gives the keys and the bits of the plain circuit.
import Garbling.FreeXor.Garbling
import Garbling.Proofs.FreeXor.Soundness
import Garbling.Proofs.Parties

namespace Garbling.FreeXor

variable {G : Type}

/-! ## What garbling makes -/

namespace Labels

/-- The label for 0 of each wire follows from the labels that were drawn. -/
def Labelling (l : Labels) (c : Circuit) (zero : Nat → Block) : Prop :=
  c.Consistent (ε := Error) (fun g operands => .ok (l.zeroOf g operands)) zero

/-- The tables of all gates, and none for a free one. -/
def tablesOf (l : Labels) (hash : PairHash) (c : Circuit) (zero : Nat → Block) : Tables :=
  ⟨c.gates.zipIdx.map fun (gate, g) => l.tableOf hash g (zero (c.gateWire g)) (gate.map zero)⟩

theorem get?_tablesOf {l : Labels} {hash : PairHash} {c : Circuit} {zero : Nat → Block} {g : Nat}
    {gate : Gate Nat} (hg : c.gates[g]? = some gate) :
    (l.tablesOf hash c zero).get? g = l.tableOf hash g (zero (c.gateWire g)) (gate.map zero) := by
  simp [tablesOf, Tables.get?, hg]

theorem get?_tablesOf_free {l : Labels} {hash : PairHash} {c : Circuit} {zero : Nat → Block}
    {g : Nat} {gate : Gate Nat} (hg : c.gates[g]? = some gate) (hfree : gate.needsTable = false) :
    (l.tablesOf hash c zero).get? g = none := by
  rw [get?_tablesOf hg]
  cases gate with
  | xor _ _ | not _ => rfl
  | and _ _ | or _ _ => cases hfree

theorem length_of_mem_tablesOf {l : Labels} {hash : PairHash} {c : Circuit} {zero : Nat → Block}
    {table : Bytes} (h : some table ∈ (l.tablesOf hash c zero).slots) :
    table.length = GateTable.size := by
  obtain ⟨⟨gate, g⟩, _, h⟩ := List.mem_map.1 h
  cases gate with
  | xor _ _ | not _ => cases h
  | and _ _ | or _ _ =>
    cases h
    exact GateTable.length_garble _ _ _ _ _ _ _

/-- What garbling makes of labels for all wires that follow from the drawn ones. -/
theorem garble_of_labelling {l : Labels} {c : Circuit} {zero : Nat → Block} (hv : c.Valid)
    (hl : l.Labelling c zero) (hinputs : l.inputs = (List.range c.inputCount).map zero)
    (hash : PairHash) : l.garble hash c =
      .ok ({ inputKeys := (List.range c.inputCount).flatMap fun w => labelPair l.offset (zero w)
             outputKeys := c.outputs.flatMap fun w => labelPair l.offset (zero w)
             translation := c.outputs.map fun w => (zero w).signal.toUInt8 },
        l.tablesOf hash c zero) := by
  have hzeros : l.zeros c = .ok (Circuit.valuesBelow zero c.wireCount) := by
    rw [zeros, hinputs]
    exact Circuit.propagate_of_consistent hv hl
  unfold garble
  rw [hzeros, ok_bind]
  refine bind_eq_ok.2 ⟨_, mapM_ok (g := fun (gate, g) =>
    l.tableOf hash g (zero (c.gateWire g)) (gate.map zero)) ?_, ?_⟩
  · rintro ⟨gate, g⟩ hmem
    have hg : c.gates[g]? = some gate := List.mem_zipIdx_iff_getElem?.1 hmem
    have hlt : c.gateWire g < c.wireCount := by
      have := (List.getElem?_eq_some_iff.1 hg).1
      rw [Circuit.gateWire, Circuit.wireCount]
      omega
    have hresolve : gate.resolve? ((Circuit.valuesBelow zero c.wireCount)[·]?) =
        some (gate.map zero) :=
      Gate.resolve?_eq_some fun w hw =>
        Circuit.getElem?_valuesBelow (Nat.lt_trans (hv.operand_lt hg hw) hlt)
    rw [inRange_eq_ok]
    simp [hresolve, Circuit.getElem?_valuesBelow hlt]
  · obtain ⟨rest, hsplit⟩ := Circuit.splitAt?_valuesBelow zero
      (Nat.le_add_right c.inputCount c.gates.length)
    refine bind_eq_ok.2 ⟨_, inRange_eq_ok.2 hsplit, ?_⟩
    rw [Circuit.readOutputs?_valuesBelow hv]
    simp only [inRange, ok_bind, pure_eq_ok, List.flatMap_map, List.map_map]
    rfl

/-- Garbling succeeds for any labels. -/
theorem garble_eq_ok {l : Labels} {c : Circuit} (hv : c.Valid)
    (hl : l.inputs.length = c.inputCount) (hash : PairHash) :
    ∃ zero, l.Labelling c zero ∧ l.garble hash c =
      .ok ({ inputKeys := (List.range c.inputCount).flatMap fun w => labelPair l.offset (zero w)
             outputKeys := c.outputs.flatMap fun w => labelPair l.offset (zero w)
             translation := c.outputs.map fun w => (zero w).signal.toUInt8 },
        l.tablesOf hash c zero) := by
  obtain ⟨zero, hzero, hinputs⟩ := Circuit.exists_consistent (ε := Error) hv l.zeroOf hl
  exact ⟨zero, hzero, garble_of_labelling hv hzero hinputs hash⟩

theorem length_inputs_draw (c : Circuit) (s : CounterStream) :
    (draw c s).inputs.length = c.inputCount := CounterStream.length_readBlocks _ _

theorem signal_offset_draw (c : Circuit) (s : CounterStream) : (draw c s).offset.signal = true :=
  Block.signal_withSignal _

end Labels

/-! ## Honest garblings -/

/-- The state after an honest garbling that reported `keys`. -/
structure Honest (c : FreeXor G) (keys : KeyMaterial) (offset : Block) (zero : Nat → Block) :
    Prop where
  signal : offset.signal = true
  audits : c.circuit.Consistent (c.auditGate offset) zero
  translates : c.Translates zero
  garbled : c.garbled = true
  slots : c.tables.size = c.circuit.gates.length
  tableSize : ∀ table, some table ∈ c.tables.slots → table.length = GateTable.size
  free : ∀ (g : Nat) gate, c.circuit.gates[g]? = some gate → gate.needsTable = false →
    c.tables.get? g = none
  inputKeys : keys.inputKeys = c.inputPairs offset zero
  outputKeys : keys.outputKeys = c.outputPairs offset zero
  translation : keys.translation = c.translation

theorem Honest.encodes {c : FreeXor G} {keys : KeyMaterial} {offset : Block} {zero : Nat → Block}
    (h : c.Honest keys offset zero) : c.Encodes offset zero :=
  encodes_of_consistent h.signal h.audits

/-- The tables that garbling makes pass the audit, gate by gate. -/
theorem audits_tablesOf {c : FreeXor G} {l : Labels} {zero : Nat → Block}
    (hs : l.offset.signal = true) (hl : l.Labelling c.circuit zero)
    (ht : c.tables = l.tablesOf c.hash c.circuit zero) :
    c.circuit.Consistent (c.auditGate l.offset) zero := by
  intro g gate hg
  have hzero : l.zeroOf g (gate.map zero) = zero (c.circuit.gateWire g) :=
    Except.ok.inj (hl g gate hg)
  have htable : c.tables.get? g =
      l.tableOf c.hash g (zero (c.circuit.gateWire g)) (gate.map zero) := by
    rw [ht]
    exact Labels.get?_tablesOf hg
  cases gate with
  | xor x y | not x => exact congrArg Except.ok hzero
  | and x y | or x y =>
    simp only [Gate.map, auditGate, auditTable, htable, Labels.tableOf]
    exact GateTable.audit_garble hs _ _ rfl _ _ _

theorem honest_of_garbleWith {c c' : FreeXor G} {keys : KeyMaterial} {l : Labels}
    (hs : l.offset.signal = true) (hl : l.inputs.length = c.inputCount)
    (h : c.garbleWith l = (.ok keys, c')) :
    c'.circuit = c.circuit ∧ c'.hash = c.hash ∧ ∃ offset zero, c'.Honest keys offset zero := by
  obtain ⟨zero, hzero, hgarble⟩ := Labels.garble_eq_ok c.valid hl c.hash
  unfold garbleWith at h
  rw [hgarble] at h
  cases h
  refine ⟨rfl, rfl, l.offset, zero, ?_⟩
  exact
    { signal := hs
      audits := audits_tablesOf hs hzero rfl
      translates := rfl
      garbled := rfl
      slots := by simp [Labels.tablesOf, Tables.size]
      tableSize := fun table => Labels.length_of_mem_tablesOf
      free := fun g gate hg hfree => Labels.get?_tablesOf_free hg hfree
      inputKeys := rfl
      outputKeys := rfl
      translation := rfl }

theorem honest_of_garble {c c' : FreeXor G} {keys : KeyMaterial} {key : Block}
    (h : c.garble key = (.ok keys, c')) :
    c'.circuit = c.circuit ∧ c'.hash = c.hash ∧ ∃ offset zero, c'.Honest keys offset zero :=
  honest_of_garbleWith (Labels.signal_offset_draw _ _) (Labels.length_inputs_draw _ _) h

/-- `c'` is the circuit after a garbling of `c` that reported `keys`: with the labels of a
random key or of a seed, or with any labels and any offset that has its signal set. -/
inductive Garbles [Generator G] (c : FreeXor G) (keys : KeyMaterial) (c' : FreeXor G) : Prop
  | random (key : Block) (h : c.garble key = (.ok keys, c'))
  | seeded (seed : Bytes) (h : c.garbleSeeded seed = (.ok keys, c'))
  | labelled (l : Labels) (hs : l.offset.signal = true) (hl : l.inputs.length = c.inputCount)
      (h : c.garbleWith l = (.ok keys, c'))

theorem honest_of_garbleSeeded [Generator G] {c c' : FreeXor G} {keys : KeyMaterial} {seed : Bytes}
    (h : c.garbleSeeded seed = (.ok keys, c')) :
    c'.circuit = c.circuit ∧ c'.hash = c.hash ∧ ∃ offset zero, c'.Honest keys offset zero := by
  unfold garbleSeeded at h
  split at h
  · cases h
  · split at h
    · cases h
    · have := honest_of_garble h
      exact this

theorem Garbles.honest [Generator G] {c c' : FreeXor G} {keys : KeyMaterial}
    (h : c.Garbles keys c') :
    c'.circuit = c.circuit ∧ c'.hash = c.hash ∧ ∃ offset zero, c'.Honest keys offset zero := by
  cases h with
  | random key h => exact honest_of_garble h
  | seeded seed h => exact honest_of_garbleSeeded h
  | labelled l hs hl h => exact honest_of_garbleWith hs hl h

/-- A garbling with fresh labels always succeeds. -/
theorem exists_garble (c : FreeXor G) (key : Block) : ∃ keys c', c.garble key = (.ok keys, c') := by
  obtain ⟨zero, _, h⟩ := Labels.garble_eq_ok c.valid
    (Labels.length_inputs_draw c.circuit (CounterStream.ofKey key)) c.hash
  unfold garble garbleWith
  rw [h]
  exact ⟨_, _, rfl⟩

/-! ## Garbled evaluation is plain evaluation -/

/-- The bits that the bytes of each party stand for: every byte other than zero is a one. -/
def inputBits (inputs : List Bytes) : List (List Bool) := inputs.map (·.map (· != 0))

/-- There are bits for all wires of a circuit that agree with the input bytes, and the plain
evaluation reads its outputs off them. -/
theorem exists_run {c : Circuit} (hv : c.Valid) {inputs : List Bytes}
    (h : inputs.map List.length = c.inputs) :
    ∃ bit, c.Carries bit ∧ inputs.flatten.map (· != 0) = (List.range c.inputCount).map bit ∧
      c.eval (inputBits inputs) = some (c.outputs.map bit) := by
  have hlen : (inputs.flatten.map (· != 0)).length = c.inputCount := by
    rw [List.length_map, List.length_flatten, h]
    rfl
  obtain ⟨bit, hbit, hinputs⟩ := Circuit.exists_carries hv hlen
  refine ⟨bit, hbit, hinputs, Circuit.eval_of_carries hv hbit ?_⟩
  rw [inputBits, ← List.map_flatten, hinputs]

/-- After any garbling, evaluation on the keys that the parties send for their bits succeeds,
and both translations of its result are the bits of the plain circuit. -/
theorem garbled_evaluation_is_plain_evaluation [Generator G] {c c' : FreeXor G}
    {keys : KeyMaterial} (h : c.Garbles keys c') {inputs : List Bytes}
    (hinputs : inputs.map List.length = c.circuit.inputs) :
    ∃ input output bits, c'.garbledInputs inputs keys.inputKeys = .ok input ∧
      c'.compute input = .ok output ∧ c.circuit.eval (inputBits inputs) = some bits ∧
      c'.translate output = .ok (bits.map Bool.toUInt8) ∧
      c'.verifiedTranslate output keys.outputKeys = .ok (bits.map Bool.toUInt8) := by
  obtain ⟨hcircuit, _, offset, zero, honest⟩ := h.honest
  rw [← hcircuit] at hinputs ⊢
  obtain ⟨bit, hbit, hbits, heval⟩ := exists_run c'.valid hinputs
  have hlen : keys.inputKeys.length = 2 * c'.inputCount * keySize := by
    rw [honest.inputKeys, length_inputPairs]
  refine ⟨_, KeyArray.choose keySize c'.outputCount (c'.outputPairs offset zero)
    fun j => bit (c'.outputWire j), _, garbledInputs_eq_ok hinputs hbits hlen, ?_, heval, ?_, ?_⟩
  · rw [honest.inputKeys]
    exact compute_choose honest.encodes honest.garbled hbit
  · rw [translate_choose honest.encodes.signal honest.translates, List.map_map]
    rfl
  · rw [honest.outputKeys, verifiedTranslate_choose honest.encodes.signal honest.translates,
      List.map_map]
    rfl

/-- Two parties with one bit each, and the conjunction of their bits. -/
def conjunction : FreeXor (StreamGenerator .aesCounter) where
  circuit := ⟨[1, 1], [.and 0 1], [2]⟩
  valid := by decide
  generator := {}

theorem garbled_conjunction_of_ones_is_one : ∃ keys c', conjunction.Garbles keys c' ∧
    ∃ input output, c'.garbledInputs [[1], [255]] keys.inputKeys = .ok input ∧
      c'.compute input = .ok output ∧ c'.translate output = .ok [1] ∧
      c'.verifiedTranslate output keys.outputKeys = .ok [1] := by
  obtain ⟨keys, c', hgarble⟩ := exists_garble conjunction 7
  have h : conjunction.Garbles keys c' := .random 7 hgarble
  obtain ⟨input, output, bits, hin, hout, heval, ht, hvt⟩ :=
    garbled_evaluation_is_plain_evaluation h (show [[1], [255]].map List.length = [1, 1] from rfl)
  have hbits : some bits = some [true] := by
    rw [← heval]
    rfl
  cases hbits
  exact ⟨keys, c', h, input, output, hin, hout, ht, hvt⟩

end Garbling.FreeXor
