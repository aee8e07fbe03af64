-- The audit is sound: it accepts no tables but those that encode the
-- circuit for the audited keys, wherever the tables are from. The keys it
-- gives are then those of the encoding, and so evaluation stays on them.
import Garbling.FreeXor.Audit
import Garbling.Proofs.FreeXor.Encoding

namespace Garbling

/-! ## Keys in pairs -/

namespace Block

theorem length_many {bs : Bytes} {n : Nat} (h : bs.length = n * size) : (many bs).length = n := by
  rw [many_eq_map h, List.length_map, List.length_range]

/-- A string of whole blocks is what its blocks make together. -/
theorem flatMap_toBytes_many {bs : Bytes} {n : Nat} (h : bs.length = n * size) :
    (many bs).flatMap toBytes = bs := by
  rw [many_eq_map h, flatMap_toBytes_pieces h]

end Block

namespace FreeXor

variable {G : Type}

theorem pairUp_flatMap {α β : Type} (f g : β → α) (l : List β) :
    pairUp (l.flatMap fun b => [f b, g b]) = l.map fun b => (f b, g b) := by
  induction l with
  | nil => rfl
  | cons b l ih =>
    rw [List.map_cons, ← ih]
    rfl

/-- Nothing is dropped from a list of even length. -/
theorem flatMap_pairUp {α : Type} {l : List α} {n : Nat} (h : l.length = 2 * n) :
    ((pairUp l).flatMap fun p => [p.1, p.2]) = l := by
  induction n generalizing l with
  | zero =>
    rw [List.length_eq_zero_iff.1 h]
    rfl
  | succ n ih =>
    cases l with
    | nil => cases h
    | cons a l =>
      cases l with
      | nil =>
        rw [List.length_singleton] at h
        omega
      | cons b l =>
        rw [List.length_cons, List.length_cons] at h
        have := ih (l := l) (by omega)
        simp only [pairUp, List.flatMap_cons, this, List.cons_append, List.nil_append]

theorem flatMap_labelPair (offset : Block) (zeros : List Block) :
    zeros.flatMap (labelPair offset) =
      (zeros.flatMap fun zero => [zero, zero ^^^ offset]).flatMap Block.toBytes := by
  simp only [List.flatMap_assoc, List.flatMap_cons, List.flatMap_nil, List.append_nil]
  rfl

/-- The pairs of labels in an array of pairs. -/
theorem pairUp_many_labelPair (offset : Block) (zeros : List Block) :
    pairUp (Block.many (zeros.flatMap (labelPair offset))) =
      zeros.map fun zero => (zero, zero ^^^ offset) := by
  rw [flatMap_labelPair, Block.many_flatMap_toBytes, pairUp_flatMap]

/-! ## What the audit accepts -/

theorem of_auditTable {c : FreeXor G} {offset a b zero : Block} {g : Nat}
    {op : Bool → Bool → Bool} (h : c.auditTable offset g op a b = .ok zero) :
    ∃ table, c.tables.get? g = some table ∧
      GateTable.audit c.hash g op offset table a b = .ok zero := by
  unfold auditTable at h
  split at h
  · cases h
  · rename_i table htable
    exact ⟨table, htable, h⟩

theorem of_offsetOf {labelPairs : List (Block × Block)} {offset : Block}
    (h : offsetOf labelPairs = .ok offset) : offset.signal = true := by
  cases labelPairs with
  | nil => cases h
  | cons pair rest =>
    simp only [offsetOf] at h
    split at h
    · rename_i hsignal
      cases h
      exact hsignal
    · cases h

theorem of_zeroOfPair {offset zero : Block} {pair : Block × Block}
    (h : zeroOfPair offset pair = .ok zero) : pair = (zero, zero ^^^ offset) := by
  unfold zeroOfPair at h
  split at h
  · rename_i heq
    cases h
    obtain ⟨a, b⟩ := pair
    rw [← heq, ← BitVec.xor_assoc, BitVec.xor_self, BitVec.zero_xor]
  · cases h

/-- All pairs of input labels differ by the offset. -/
theorem of_mapM_zeroOfPair {offset : Block} {labelPairs : List (Block × Block)} {zeros : List Block}
    (h : labelPairs.mapM (zeroOfPair offset) = .ok zeros) :
    labelPairs = zeros.map fun zero => (zero, zero ^^^ offset) := by
  rw [mapM_eq_ok] at h
  induction labelPairs generalizing zeros with
  | nil =>
    cases zeros with
    | nil => rfl
    | cons zero zeros => cases h
  | cons pair labelPairs ih =>
    cases zeros with
    | nil => cases h
    | cons zero zeros =>
      rw [List.map_cons, List.map_cons, List.cons.injEq] at h
      rw [List.map_cons, ← ih h.2, of_zeroOfPair h.1]

/-- A table that passes the audit of its gate leads any labels to the label of their bit. -/
theorem openTable_of_auditTable {c : FreeXor G} {offset a b zero : Block} {g : Nat}
    {op : Bool → Bool → Bool} (h : c.auditTable offset g op a b = .ok zero) (x y : Bool) :
    c.openTable g (labelFor offset a x) (labelFor offset b y) =
      .ok (labelFor offset zero (op x y)) := by
  obtain ⟨table, htable, haudit⟩ := of_auditTable h
  obtain ⟨hlen, hopen⟩ := GateTable.of_audit haudit
  rw [openTable, htable]
  simp only [hlen, if_true, hopen, inRange]

/-- Labels that the audit derives gate by gate are labels of an encoding. -/
theorem encodes_of_consistent {c : FreeXor G} {offset : Block} {zero : Nat → Block}
    (hs : offset.signal = true) (h : c.circuit.Consistent (c.auditGate offset) zero) :
    c.Encodes offset zero := by
  refine ⟨hs, ?_⟩
  intro g gate hg bit
  have hgate := h g gate hg
  cases gate with
  | xor x y =>
    have hzero : zero x ^^^ zero y = zero (c.circuit.gateWire g) := Except.ok.inj hgate
    simp only [Gate.map, labelOf, labelFor_xor_labelFor, Gate.bit, hzero]
  | not x =>
    have hzero : zero x ^^^ offset = zero (c.circuit.gateWire g) := Except.ok.inj hgate
    simp only [Gate.map, labelOf, Gate.bit, ← hzero, labelFor_xor_offset]
  | and x y => exact openTable_of_auditTable hgate _ _
  | or x y => exact openTable_of_auditTable hgate _ _

/-- The audit derives consistent labels for all wires from the audited keys, and gives those of
the outputs. -/
theorem consistent_of_audit {c : FreeXor G} {pairs outputs : Bytes}
    (h : c.audit pairs = .ok outputs) : ∃ offset zero, offset.signal = true ∧
      c.circuit.Consistent (c.auditGate offset) zero ∧ pairs = c.inputPairs offset zero ∧
      outputs = c.outputPairs offset zero := by
  unfold audit at h
  obtain ⟨hlen, h⟩ := guard_eq_ok.1 h
  obtain ⟨_, h⟩ := guard_eq_ok.1 h
  obtain ⟨offset, hoffset, h⟩ := bind_eq_ok.1 h
  obtain ⟨zeros, hzeros, h⟩ := bind_eq_ok.1 h
  obtain ⟨values, hvalues, h⟩ := bind_eq_ok.1 h
  obtain ⟨result, hresult, h⟩ := bind_eq_ok.1 h
  have houtputs := pure_eq_ok.1 h
  have hblocks : pairs.length = 2 * c.inputCount * Block.size := Decidable.not_not.1 hlen
  have hpairs : pairs = zeros.flatMap (labelPair offset) := by
    have heven := flatMap_pairUp (Block.length_many hblocks)
    rw [of_mapM_zeroOfPair hzeros, List.flatMap_map] at heven
    rw [flatMap_labelPair, heven, Block.flatMap_toBytes_many hblocks]
  have hcount : zeros.length = c.circuit.inputCount := by
    have := congrArg List.length hpairs
    rw [hblocks, flatMap_labelPair, List.length_flatMap] at this
    simp only [Block.length_toBytes, List.map_const', List.sum_replicate_nat, List.length_flatMap,
      List.length_cons, List.length_nil] at this
    have := Nat.eq_of_mul_eq_mul_right (by decide) this
    simp only [inputCount] at this
    omega
  obtain ⟨zero, hconsistent, rfl, rfl⟩ := Circuit.consistent_of_propagate hcount hvalues
  rw [auditRange_eq_ok, Circuit.readOutputs?_valuesBelow c.valid, Option.some.injEq] at hresult
  refine ⟨offset, zero, of_offsetOf hoffset, hconsistent, ?_, ?_⟩
  · rw [hpairs, List.flatMap_map]
    rfl
  · rw [← houtputs, ← hresult, List.flatMap_map]
    rfl

/-- The audited keys are the labels of an encoding, and the audit gives those of its outputs. -/
theorem encodes_of_audit {c : FreeXor G} {pairs outputs : Bytes} (h : c.audit pairs = .ok outputs) :
    ∃ offset zero, c.Encodes offset zero ∧ pairs = c.inputPairs offset zero ∧
      outputs = c.outputPairs offset zero := by
  obtain ⟨offset, zero, hsignal, hconsistent, hpairs, houtputs⟩ := consistent_of_audit h
  exact ⟨offset, zero, encodes_of_consistent hsignal hconsistent, hpairs, houtputs⟩

end FreeXor

end Garbling
