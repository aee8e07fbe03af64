-- What the audit accepts: the tables that garbling makes, and no others.
-- The input keys fix the offset and the labels of the input wires, a free
-- gate leads its labels on, and a table that passes names the label of its
-- own gate, so no tables can have been made in two ways.
import Garbling.Proofs.FreeXor.Completeness

namespace Garbling.FreeXor

variable {G : Type}

/-! ## Labels that tables were made with -/

/-- A free gate leads its labels on; the slot of any other gate holds the table that garbling
writes for its labels. -/
def MadeGate (c : FreeXor G) (offset : Block) (zero : Nat → Block) (g : Nat) : Gate Nat → Prop
  | .xor x y => zero (c.circuit.gateWire g) = zero x ^^^ zero y
  | .not x => zero (c.circuit.gateWire g) = zero x ^^^ offset
  | .and x y => c.tables.get? g = some (GateTable.garble c.hash g (· && ·) offset (zero x) (zero y)
      (zero (c.circuit.gateWire g)))
  | .or x y => c.tables.get? g = some (GateTable.garble c.hash g (· || ·) offset (zero x) (zero y)
      (zero (c.circuit.gateWire g)))

/-- The two keys of each input wire differ by the offset, which changes the signal, and the
tables are those for the labels for 0 of all wires. -/
structure MadeWith (c : FreeXor G) (pairs : Bytes) (offset : Block) (zero : Nat → Block) :
    Prop where
  length : pairs.length = 2 * c.inputCount * keySize
  signal : offset.signal = true
  keys : ∀ w < c.inputCount, ∀ bit, KeyArray.bitKeyAt? keySize pairs w bit =
    some (labelFor offset (zero w) bit).toBytes
  gates : ∀ (g : Nat) gate, c.circuit.gates[g]? = some gate → c.MadeGate offset zero g gate

theorem auditTable_eq_ok_iff {c : FreeXor G} {offset a b zero : Block} {g : Nat}
    {op : Bool → Bool → Bool} (hs : offset.signal = true) (hop : op false false = false) :
    c.auditTable offset g op a b = .ok zero ↔
      c.tables.get? g = some (GateTable.garble c.hash g op offset a b zero) := by
  unfold auditTable
  cases c.tables.get? g with
  | none => simp
  | some table => simp [GateTable.audit_eq_ok_iff hs hop]

/-- The audit of one gate gives the label that the gate was made with. -/
theorem auditGate_eq_ok_iff {c : FreeXor G} {offset : Block} {zero : Nat → Block} {g : Nat}
    {gate : Gate Nat} (hs : offset.signal = true) :
    c.auditGate offset g (gate.map zero) = .ok (zero (c.circuit.gateWire g)) ↔
      c.MadeGate offset zero g gate := by
  cases gate with
  | xor x y | not x =>
    exact ⟨fun h => (Except.ok.inj h).symm, fun h => congrArg Except.ok h.symm⟩
  | and x y | or x y => exact auditTable_eq_ok_iff hs rfl

theorem madeWith_iff {c : FreeXor G} {pairs : Bytes} {offset : Block} {zero : Nat → Block} :
    c.MadeWith pairs offset zero ↔ offset.signal = true ∧
      c.circuit.Consistent (c.auditGate offset) zero ∧ pairs = c.inputPairs offset zero := by
  constructor
  · rintro ⟨hlen, hs, hkeys, hgates⟩
    refine ⟨hs, fun g gate hg => ?_, eq_inputPairs_iff.2 ⟨hlen, hkeys⟩⟩
    exact (auditGate_eq_ok_iff hs).2 (hgates g gate hg)
  · rintro ⟨hs, hconsistent, hpairs⟩
    obtain ⟨hlen, hkeys⟩ := eq_inputPairs_iff.1 hpairs
    exact ⟨hlen, hs, hkeys, fun g gate hg => (auditGate_eq_ok_iff hs).1 (hconsistent g gate hg)⟩

/-- The audit accepts what was made with some labels, and gives those of the outputs. -/
theorem internalVerify_eq_some_iff {c : FreeXor G} (hwires : 0 < c.inputCount)
    (hslots : c.tables.size = c.circuit.gates.length) {pairs outputs : Bytes} :
    c.internalVerify pairs = some outputs ↔
      ∃ offset zero, c.MadeWith pairs offset zero ∧ outputs = c.outputPairs offset zero := by
  rw [internalVerify, toOption_eq_some]
  constructor
  · intro h
    obtain ⟨offset, zero, hs, hconsistent, hpairs, houtputs⟩ := consistent_of_audit h
    exact ⟨offset, zero, madeWith_iff.2 ⟨hs, hconsistent, hpairs⟩, houtputs⟩
  · rintro ⟨offset, zero, hmade, rfl⟩
    obtain ⟨hs, hconsistent, rfl⟩ := madeWith_iff.1 hmade
    exact audit_of_consistent hs hconsistent hslots hwires

/-- There is one way at most to have made the tables. -/
theorem MadeWith.unique {c : FreeXor G} {pairs : Bytes} {offset offset' : Block}
    {zero zero' : Nat → Block} (hwires : 0 < c.inputCount) (h : c.MadeWith pairs offset zero)
    (h' : c.MadeWith pairs offset' zero') :
    offset' = offset ∧ ∀ w < c.circuit.wireCount, zero' w = zero w := by
  obtain ⟨_, hconsistent, hpairs⟩ := madeWith_iff.1 h
  obtain ⟨_, hconsistent', hpairs'⟩ := madeWith_iff.1 h'
  obtain ⟨rfl, hinputs⟩ := labels_of_inputPairs hwires (hpairs'.symm.trans hpairs)
  exact ⟨rfl, hconsistent.eq_of_steps c.valid hconsistent' (Nat.le_refl _) hinputs
    fun _ _ _ => rfl⟩

/-- Only the slots of gates that need a table matter. -/
theorem madeWith_congr {c : FreeXor G} {tables : Tables} {pairs : Bytes} {offset : Block}
    {zero : Nat → Block} (hneeded : ∀ (g : Nat) gate, c.circuit.gates[g]? = some gate →
      gate.needsTable = true → tables.get? g = c.tables.get? g) :
    { c with tables }.MadeWith pairs offset zero ↔ c.MadeWith pairs offset zero := by
  have hgate : ∀ (g : Nat) gate, c.circuit.gates[g]? = some gate →
      ({ c with tables }.MadeGate offset zero g gate ↔ c.MadeGate offset zero g gate) := by
    intro g gate hg
    cases gate with
    | xor x y | not x => exact Iff.rfl
    | and x y | or x y => rw [MadeGate, MadeGate, hneeded g _ hg rfl]
  constructor
  · rintro ⟨hlen, hs, hkeys, hgates⟩
    exact ⟨hlen, hs, hkeys, fun g gate hg => (hgate g gate hg).1 (hgates g gate hg)⟩
  · rintro ⟨hlen, hs, hkeys, hgates⟩
    exact ⟨hlen, hs, hkeys, fun g gate hg => (hgate g gate hg).2 (hgates g gate hg)⟩

/-! ## Garbling with these labels -/

/-- The labels of a garbling that has these labels for 0. -/
def labelsOf (c : Circuit) (offset : Block) (zero : Nat → Block) : Labels where
  offset := offset
  inputs := (List.range c.inputCount).map zero
  fresh := (List.range c.gates.length).map fun g => zero (c.gateWire g)

/-- What passes for made was made: garbling with these labels gives the same keys and tables. -/
theorem MadeWith.garble {c : FreeXor G} {pairs : Bytes} {offset : Block} {zero : Nat → Block}
    (h : c.MadeWith pairs offset zero) : ∃ keys tables,
      (labelsOf c.circuit offset zero).garble c.hash c.circuit = .ok (keys, tables) ∧
      keys.inputKeys = pairs ∧ keys.outputKeys = c.outputPairs offset zero ∧
      ∀ (g : Nat) gate, c.circuit.gates[g]? = some gate → gate.needsTable = true →
        tables.get? g = c.tables.get? g := by
  have hlabelling : (labelsOf c.circuit offset zero).Labelling c.circuit zero := by
    intro g gate hg
    have hmade := h.gates g gate hg
    cases gate with
    | xor x y | not x => exact congrArg Except.ok hmade.symm
    | and x y | or x y =>
      have hlt := (List.getElem?_eq_some_iff.1 hg).1
      simp [Labels.zeroOf, Gate.map, Labels.freshAt, labelsOf, hlt]
  refine ⟨_, _, Labels.garble_of_labelling c.valid hlabelling rfl c.hash,
    (madeWith_iff.1 h).2.2.symm, rfl, fun g gate hg hneeds => ?_⟩
  rw [Labels.get?_tablesOf hg]
  have hmade := h.gates g gate hg
  cases gate with
  | xor x y | not x => cases hneeds
  | and x y | or x y => exact hmade.symm

/-- Tables that garbling makes were made with the labels of this garbling. -/
theorem madeWith_of_garble {c : FreeXor G} {l : Labels} {keys : KeyMaterial} {tables : Tables}
    (hs : l.offset.signal = true) (hl : l.inputs.length = c.inputCount)
    (h : l.garble c.hash c.circuit = .ok (keys, tables)) :
    ∃ zero, { c with tables }.MadeWith keys.inputKeys l.offset zero ∧
      keys.outputKeys = c.outputPairs l.offset zero := by
  obtain ⟨zero, hlabelling, hgarble⟩ := Labels.garble_eq_ok c.valid hl c.hash
  rw [hgarble] at h
  cases h
  exact ⟨zero, madeWith_iff.2 ⟨hs, audits_tablesOf hs hlabelling rfl, rfl⟩, rfl⟩

/-- For a circuit with an input wire and one slot for each gate, whatever is in the slots, and for
any hash and any keys: the audit accepts exactly if the keys and the tables were made with some
offset and labels, and gives both labels of the output wires. These are then the only ones, the
slots of free gates do not matter, and what is accepted is what garbling makes of some labels. -/
theorem audit_accepts_exactly_honest_garblings {c : FreeXor G} (hwires : 0 < c.inputCount)
    (hslots : c.tables.size = c.circuit.gates.length) (pairs : Bytes) :
    (∀ outputs, c.internalVerify pairs = some outputs ↔
      ∃ offset zero, c.MadeWith pairs offset zero ∧ outputs = c.outputPairs offset zero) ∧
    (∀ offset offset' zero zero', c.MadeWith pairs offset zero → c.MadeWith pairs offset' zero' →
      offset' = offset ∧ ∀ w < c.circuit.wireCount, zero' w = zero w) ∧
    (∀ tables : Tables, tables.size = c.circuit.gates.length →
      (∀ (g : Nat) gate, c.circuit.gates[g]? = some gate → gate.needsTable = true →
        tables.get? g = c.tables.get? g) →
      { c with tables }.internalVerify pairs = c.internalVerify pairs) ∧
    (∀ outputs, c.internalVerify pairs = some outputs ↔ ∃ (l : Labels) (keys : KeyMaterial)
      (tables : Tables), l.offset.signal = true ∧ l.inputs.length = c.inputCount ∧
      l.garble c.hash c.circuit = .ok (keys, tables) ∧ keys.inputKeys = pairs ∧
      keys.outputKeys = outputs ∧ ∀ (g : Nat) gate, c.circuit.gates[g]? = some gate →
        gate.needsTable = true → tables.get? g = c.tables.get? g) := by
  refine ⟨fun outputs => internalVerify_eq_some_iff hwires hslots,
    fun _ _ _ _ => MadeWith.unique hwires, ?_, fun outputs => ?_⟩
  · intro tables hsize hneeded
    refine Option.ext fun outputs => ?_
    rw [internalVerify_eq_some_iff (c := { c with tables }) hwires hsize,
      internalVerify_eq_some_iff hwires hslots]
    exact exists_congr fun offset => exists_congr fun zero =>
      and_congr_left fun _ => madeWith_congr hneeded
  · rw [internalVerify_eq_some_iff hwires hslots]
    constructor
    · rintro ⟨offset, zero, hmade, rfl⟩
      obtain ⟨keys, tables, hgarble, hpairs, houtputs, hneeded⟩ := hmade.garble
      have hcount : (labelsOf c.circuit offset zero).inputs.length = c.inputCount := by
        rw [labelsOf, List.length_map, List.length_range]
        rfl
      exact ⟨_, keys, tables, hmade.signal, hcount, hgarble, hpairs, houtputs, hneeded⟩
    · rintro ⟨l, keys, tables, hs, hl, hgarble, rfl, rfl, hneeded⟩
      obtain ⟨zero, hmade, houtputs⟩ := madeWith_of_garble hs hl hgarble
      exact ⟨l.offset, zero, (madeWith_congr hneeded).1 hmade, houtputs⟩

/-- An input wire, its negation and the conjunction of both. The slot of the free gate is in use,
and the other one holds the table for the labels 2, 3 and 4 with the offset 1. -/
def spareSlot : FreeXor (StreamGenerator .aesCounter) where
  circuit := ⟨[1], [.not 0, .and 0 1], [2]⟩
  valid := by decide
  generator := {}
  tables := ⟨[some [7], some (GateTable.garble fixedPairHash 1 (· && ·) 1 2 3 4)]⟩

theorem audit_accepts_the_table_of_two_labels :
    spareSlot.internalVerify ([2, 3].flatMap Block.toBytes) =
      some ([4, 5].flatMap Block.toBytes) := by
  refine ((audit_accepts_exactly_honest_garblings (c := spareSlot) (by decide) rfl
    ([2, 3].flatMap Block.toBytes)).1 _).2 ⟨1, fun w => BitVec.ofNat 128 (w + 2), ?_, by decide⟩
  refine ⟨by decide, by decide, ?_, ?_⟩
  · intro w hw bit
    have hw : w = 0 := Nat.lt_one_iff.1 hw
    subst hw
    cases bit <;> decide
  · intro g gate hg
    match g, hg with
    | 0, rfl => rfl
    | 1, rfl => rfl

end Garbling.FreeXor
