-- Damaged gate tables do not pass the audit. A gate table has one row for
-- each two bits, and any three of them already fix the label for 0, so the
-- changed row cannot hold what it has to. The labels that a gate reads do
-- not depend on its own table.
import Garbling.Proofs.Damage
import Garbling.Proofs.FreeXor.Completeness

namespace Garbling

/-! ## A damaged table -/

theorem labelFor_inj {offset zero zero' : Block} {bit : Bool}
    (h : labelFor offset zero bit = labelFor offset zero' bit) : zero = zero' := by
  cases bit with
  | false => exact h
  | true => exact (BitVec.xor_left_inj offset).1 h

namespace GateTable

/-- A masked byte changes the row that it lies in, and no other. -/
theorem row?_maskAt_eq_iff {table : Bytes} {index position : Nat} {mask : UInt8}
    (hmask : mask ≠ 0) (hlen : table.length = size) (hindex : index < 4) :
    row? (table.maskAt position mask) index = row? table index ↔ position / Block.size ≠ index := by
  have hpiece : index * Block.size + Block.size ≤ table.length := by
    rw [hlen, size, Block.size]
    omega
  rw [← Bytes.piece_maskAt_eq_iff hmask (by decide) hpiece, row?, row?]
  constructor
  · intro h
    have hlen' : index * Block.size + Block.size ≤ (table.maskAt position mask).length := by
      rwa [Bytes.length_maskAt]
    obtain ⟨bytes, hbytes⟩ : ∃ bytes, table.slice? (index * Block.size) Block.size = some bytes :=
      ⟨_, Bytes.slice?_eq_some_iff.2 ⟨hpiece, rfl⟩⟩
    obtain ⟨bytes', hbytes'⟩ : ∃ bytes,
        (table.maskAt position mask).slice? (index * Block.size) Block.size = some bytes :=
      ⟨_, Bytes.slice?_eq_some_iff.2 ⟨hlen', rfl⟩⟩
    rw [hbytes, hbytes', Option.map_some, Option.map_some, Option.some.injEq] at h
    rw [hbytes, hbytes', ← Block.toBytes_ofBytes (Bytes.length_of_slice? hbytes), ← h,
      Block.toBytes_ofBytes (Bytes.length_of_slice? hbytes')]
  · exact fun h => congrArg _ h

/-- A table and the same table with a masked byte do not both pass the audit. -/
theorem not_audit_maskAt {hash : PairHash} {gate : Nat} {op : Bool → Bool → Bool}
    {offset a b zero zero' : Block} {table : Bytes} {position : Nat} {mask : UInt8}
    (hs : offset.signal = true) (hposition : position < table.length) (hmask : mask ≠ 0)
    (h : audit hash gate op offset table a b = .ok zero) :
    audit hash gate op offset (table.maskAt position mask) a b ≠ .ok zero' := by
  intro h'
  obtain ⟨hlen, hopen⟩ := of_audit h
  obtain ⟨_, hopen'⟩ := of_audit h'
  have hrow : ∀ x y, row? (table.maskAt position mask)
      (rowIndex (labelFor offset a x) (labelFor offset b y)) =
        row? table (rowIndex (labelFor offset a x) (labelFor offset b y)) ↔
      position / Block.size ≠ 2 * (a.signal ^^ x).toNat + (b.signal ^^ y).toNat := by
    intro x y
    have hlt : 2 * (a.signal ^^ x).toNat + (b.signal ^^ y).toNat < 4 := by
      cases (a.signal ^^ x) <;> cases (b.signal ^^ y) <;> decide
    rw [rowIndex_labelFor hs]
    exact row?_maskAt_eq_iff hmask hlen hlt
  -- the bits of the changed row
  have hbits : ∀ s t : Bool, ∀ r < 4, ∃ x y : Bool, r = 2 * (s ^^ x).toNat + (t ^^ y).toNat := by
    decide
  have hblock : position / Block.size < 4 := by
    rw [hlen, size, Block.size] at hposition
    rw [Block.size]
    omega
  obtain ⟨x, y, hxy⟩ := hbits a.signal b.signal _ hblock
  -- another row is as it was, and fixes the label for 0
  have hother : position / Block.size ≠ 2 * (a.signal ^^ !x).toNat + (b.signal ^^ y).toNat := by
    rw [hxy]
    cases a.signal <;> cases b.signal <;> cases x <;> cases y <;> decide
  have hsame := hopen' (!x) y
  rw [open?, (hrow (!x) y).2 hother, ← open?, hopen, Option.some.injEq] at hsame
  have hzero := labelFor_inj hsame
  subst hzero
  have hchanged := (hopen' x y).trans (hopen x y).symm
  rw [open?, open?] at hchanged
  refine (hrow x y).1 (Option.map_inj_right ?_ |>.1 hchanged) hxy
  intro k l hkl
  exact (BitVec.xor_left_inj _).1 hkl

/-- A table that passes the audit does not pass it any more when it is damaged. -/
theorem not_audit_of_damage {hash : PairHash} {gate : Nat} {op : Bool → Bool → Bool}
    {offset a b zero zero' : Block} {table table' : Bytes} {d : Damage}
    (hs : offset.signal = true) (hshows : d.Shows table) (hresult : d.result table = some table')
    (h : audit hash gate op offset table a b = .ok zero) :
    audit hash gate op offset table' a b ≠ .ok zero' := by
  cases d with
  | mask position byte =>
    cases hresult
    exact not_audit_maskAt hs hshows.1 hshows.2 h
  | drop => cases hresult
  | replace other =>
    cases hresult
    intro h'
    exact hshows ((of_audit h').1.trans (of_audit h).1.symm)

end GateTable

namespace FreeXor

/-! ## Damage among the tables of a circuit -/

variable {G G' : Type}

/-- An audit of the keys for some labels derives the labels of all wires from these. -/
theorem consistent_of_audit_inputPairs {c : FreeXor G} {offset : Block} {zero : Nat → Block}
    {outputs : Bytes} (h : c.audit (c.inputPairs offset zero) = .ok outputs)
    (hwires : 0 < c.inputCount) : ∃ zero', c.circuit.Consistent (c.auditGate offset) zero' ∧
      ∀ w < c.inputCount, zero' w = zero w := by
  obtain ⟨offset', zero', _, hconsistent, hpairs, _⟩ := consistent_of_audit h
  obtain ⟨rfl, hinputs⟩ := labels_of_inputPairs hwires hpairs
  exact ⟨zero', hconsistent, fun w hw => (hinputs w hw).symm⟩

/-- The audit looks at the circuit, the hash and the tables only. -/
theorem audit_congr {c : FreeXor G} {e : FreeXor G'} (hcircuit : e.circuit = c.circuit)
    (hhash : e.hash = c.hash) (htables : e.tables = c.tables) (pairs : Bytes) :
    e.audit pairs = c.audit pairs := by
  obtain ⟨circuit, _, _, hash, tables, _, _⟩ := c
  obtain ⟨circuit', _, _, hash', tables', _, _⟩ := e
  cases hcircuit
  cases hhash
  cases htables
  rfl

theorem verifyTranslation_congr {c : FreeXor G} {e : FreeXor G'}
    (hcircuit : e.circuit = c.circuit) (htranslation : e.translation = c.translation)
    (pairs : Bytes) : e.verifyTranslation pairs = c.verifyTranslation pairs := by
  obtain ⟨circuit, _, _, _, _, translation, _⟩ := c
  obtain ⟨circuit', _, _, _, _, translation', _⟩ := e
  cases hcircuit
  cases htranslation
  rfl

/-- The audit of a gate looks at the table of the gate only. -/
theorem auditGate_congr {c : FreeXor G} {e : FreeXor G'} (hhash : e.hash = c.hash) {g : Nat}
    (htable : e.tables.get? g = c.tables.get? g) (offset : Block) (operands : Gate Block) :
    e.auditGate offset g operands = c.auditGate offset g operands := by
  cases operands with
  | xor x y | not x => rfl
  | and a b | or a b => simp only [auditGate, auditTable, hhash, htable]

/-- The audit refuses an honest garbling with a damaged table for the keys that were reported. -/
theorem Honest.not_audit_of_damage {c : FreeXor G} {e : FreeXor G'} {keys : KeyMaterial}
    {offset : Block} {zero : Nat → Block} (h : c.Honest keys offset zero)
    (hcircuit : e.circuit = c.circuit) (hhash : e.hash = c.hash) {g : Nat} {d : Damage}
    (htables : e.tables = c.tables.damage g d) {table : Bytes}
    (htable : c.tables.get? g = some table) (hshows : d.Shows table) (hwires : 0 < e.inputCount)
    (outputs : Bytes) : e.audit (e.inputPairs offset zero) ≠ .ok outputs := by
  intro haudit
  obtain ⟨zero', hconsistent, hinputs⟩ := consistent_of_audit_inputPairs haudit hwires
  rw [hcircuit] at hconsistent
  rw [inputCount_congr hcircuit] at hinputs
  have hlt : g < c.circuit.gates.length := by
    rw [← h.slots]
    exact Tables.lt_size_of_get? htable
  have hgate : c.circuit.gates[g]? = some c.circuit.gates[g] := List.getElem?_eq_getElem hlt
  -- the gates before this one have the tables that they had
  have hbefore : ∀ w < c.circuit.gateWire g, zero' w = zero w :=
    h.audits.eq_of_steps c.valid hconsistent (Nat.le_of_lt hlt) hinputs fun g' hg' operands =>
      auditGate_congr hhash (by rw [htables, Tables.get?_damage_ne (by omega)]) _ operands
  have hread : c.circuit.gates[g].map zero' = c.circuit.gates[g].map zero :=
    Gate.map_congr fun w hw => hbefore w (c.valid.operand_lt hgate hw)
  have hhonest := h.audits g _ hgate
  have hdamaged := hconsistent g _ hgate
  rw [hread] at hdamaged
  have hrefused : ∀ op a b, c.auditTable offset g op a b = .ok (zero (c.circuit.gateWire g)) →
      e.auditTable offset g op a b ≠ .ok (zero' (c.circuit.gateWire g)) := by
    intro op a b hhonest hdamaged
    obtain ⟨found, hfound, hpasses⟩ := of_auditTable hhonest
    obtain ⟨table', htable', hpasses'⟩ := of_auditTable hdamaged
    rw [htable, Option.some.injEq] at hfound
    subst hfound
    rw [htables, Tables.get?_damage_self htable] at htable'
    rw [hhash] at hpasses'
    exact GateTable.not_audit_of_damage h.signal hshows htable' hpasses hpasses'
  -- a free gate has no table that could be damaged
  have hneeds : c.circuit.gates[g].needsTable = true := by
    rw [← Bool.not_eq_false]
    intro hfree
    rw [h.free g _ hgate hfree] at htable
    cases htable
  cases hkind : c.circuit.gates[g] with
  | xor x y | not x =>
    rw [hkind] at hneeds
    cases hneeds
  | and x y | or x y =>
    rw [hkind] at hhonest hdamaged
    exact hrefused _ _ _ hhonest hdamaged

/-! ## A changed key -/

/-- The audit refuses keys of which one is not the one of an encoding: with the other key of its
wire it gives another offset than the keys of all other wires. -/
theorem not_audit_of_changed_key {c : FreeXor G} {offset : Block} {zero : Nat → Block}
    {pairs : Bytes} {wire : Nat} {changed : Bool} (hwires : 2 ≤ c.inputCount)
    (hwire : wire < c.inputCount)
    (hkeys : ∀ w < c.inputCount, ∀ bit, KeyArray.keyFor keySize pairs w bit =
      KeyArray.keyFor keySize (c.inputPairs offset zero) w bit ↔ ¬ (w = wire ∧ bit = changed))
    (outputs : Bytes) : c.audit pairs ≠ .ok outputs := by
  intro haudit
  obtain ⟨offset', zero', _, _, rfl, _⟩ := consistent_of_audit haudit
  have hlabels : ∀ w < c.inputCount, ∀ bit, ¬ (w = wire ∧ bit = changed) →
      labelFor offset' (zero' w) bit = labelFor offset (zero w) bit := by
    intro w hw bit hsame
    have hkey := (hkeys w hw bit).2 hsame
    rw [inputPairs, inputPairs, keyFor_labelPairs hw, keyFor_labelPairs hw] at hkey
    exact Block.toBytes_injective hkey
  have hoffset : offset' = offset := by
    obtain ⟨w, hw, hne⟩ : ∃ w < c.inputCount, w ≠ wire := by
      by_cases h : wire = 0
      · exact ⟨1, by omega, by omega⟩
      · exact ⟨0, by omega, by omega⟩
    have hzero : zero' w = zero w := hlabels w hw false fun h => hne h.1
    have hone := hlabels w hw true fun h => hne h.1
    simp only [labelFor, if_true, hzero] at hone
    exact (BitVec.xor_right_inj _).1 hone
  subst hoffset
  have hzero : zero' wire = zero wire :=
    labelFor_inj (hlabels wire hwire (!changed) fun h => by cases changed <;> cases h.2)
  refine (hkeys wire hwire changed).1 ?_ ⟨rfl, rfl⟩
  rw [inputPairs, inputPairs, keyFor_labelPairs hwire, keyFor_labelPairs hwire, hzero]

end FreeXor

end Garbling
