-- Tables that were received. They alone say which sides have a layer. Any
-- instance over the same circuit takes over the tables of an honest
-- garbling, and with the same scheme they encode the circuit there too.
import Garbling.Proofs.Layered.HonestGarbling

namespace Garbling

/-! ## Taking over tables -/

namespace Side

/-- The side after it took over tables: there is a layer for them, and pinned keys stay, or
there is nothing left. -/
def receive (side : Side) : Option Tables → Side
  | none => {}
  | some tables => { side with layered := true, tables := some tables }

@[simp] theorem receive_layered (side : Side) (tables : Option Tables) :
    (side.receive tables).layered = tables.isSome := by
  cases tables <;> rfl

@[simp] theorem receive_tables (side : Side) (tables : Option Tables) :
    (side.receive tables).tables = tables := by
  cases tables <;> rfl

theorem receive_new_pinned (tables : Option Tables) : (Side.receive {} tables).pinned = none := by
  cases tables <;> rfl

theorem expect_eq_ok {side side' : Side} {wires : Nat} {received : Option Tables} :
    side.expect wires received = .ok side' ↔ (∀ tables ∈ received, wires ≤ 0x100000000) ∧
      side' = { side.receive received with tables := side.tables } := by
  cases received with
  | none => simp [expect, receive, eq_comm]
  | some tables =>
    unfold expect
    simp only [Option.mem_def, Option.some.injEq, forall_eq']
    rw [bind_eq_ok]
    constructor
    · rintro ⟨_, hcount, h⟩
      exact ⟨Layer.checkCount_eq_ok.1 hcount, (pure_eq_ok.1 h).symm⟩
    · rintro ⟨hcount, rfl⟩
      exact ⟨(), Layer.checkCount_eq_ok.2 hcount, rfl⟩

theorem active_congr {side side' : Side} (hlayered : side'.layered = side.layered)
    (htables : side'.tables = side.tables) : side'.active = side.active := by
  rw [active, active, hlayered, htables]

end Side

theorem FreeXor.Encodes.received {G G' : Type} {c : FreeXor G} {e : FreeXor G'} {offset : Block}
    {zero : Nat → Block} (h : c.Encodes offset zero) (hcircuit : e.circuit = c.circuit)
    (hhash : e.hash = c.hash) (htables : e.tables = c.tables) : e.Encodes offset zero := by
  have hlabel : ∀ g gate, e.labelOf g gate = c.labelOf g gate := by
    intro g gate
    cases gate <;> simp only [labelOf, openTable, hhash, htables]
  refine ⟨h.signal, ?_⟩
  intro g gate hg bit
  rw [hcircuit] at hg ⊢
  rw [hlabel]
  exact h.gate g gate hg bit

namespace Layered

section

variable {P G : Type} {c c' : Layered P G} {tables : LayeredTables}

/-- The tables have one slot for each gate, and on a side with tables one for each wire. -/
structure Accepts (c : Layered P G) (tables : LayeredTables) : Prop where
  inner : tables.inner.size = c.inner.circuit.gates.length
  input : ∀ t ∈ tables.input, t.size = c.inner.inputCount ∧ c.inner.inputCount ≤ 0x100000000
  output : ∀ t ∈ tables.output, t.size = c.inner.outputCount ∧ c.inner.outputCount ≤ 0x100000000

/-- The circuit after it took over tables. -/
def receive (c : Layered P G) (tables : LayeredTables) : Layered P G :=
  { c with
    inner := { c.inner with tables := tables.inner, garbled := true }
    input := c.input.receive tables.input
    output := c.output.receive tables.output
    garbled := true }

theorem tables_receive (c : Layered P G) (tables : LayeredTables) :
    (c.receive tables).tables = tables := by
  simp [Layered.tables, receive]

theorem fits_eq_true {wires : Nat} {received : Option Tables} :
    fits wires received = true ↔ ∀ t ∈ received, t.size = wires := by
  cases received <;> simp [fits]

/-- Tables are taken over if and only if the circuit accepts them, and then as they are. -/
theorem setTables_eq_ok :
    c.setTables tables = (.ok (), c') ↔ c.Accepts tables ∧ c' = c.receive tables := by
  have hcount (inner : FreeXor G) (h : c.inner.setTables tables.inner = .ok inner) :
      tables.inner.size = c.inner.circuit.gates.length ∧
        inner = { c.inner with tables := tables.inner, garbled := true } := by
    unfold FreeXor.setTables at h
    split at h
    · cases h
      exact ⟨‹_›, rfl⟩
    · cases h
  constructor
  · intro h
    unfold setTables at h
    split at h
    · cases h
    rename_i hin
    split at h
    · cases h
    rename_i hout
    simp only [Bool.not_eq_true, Bool.not_eq_false', fits_eq_true] at hin hout
    split at h
    · cases h
    rename_i inner hinner
    obtain ⟨hslots, rfl⟩ := hcount inner hinner
    split at h
    · cases h
    rename_i input hinput
    split at h
    · cases h
    rename_i output houtput
    obtain ⟨hinputs, rfl⟩ := Side.expect_eq_ok.1 hinput
    obtain ⟨houtputs, rfl⟩ := Side.expect_eq_ok.1 houtput
    cases h
    refine ⟨⟨hslots, fun t ht => ⟨hin t ht, hinputs t ht⟩,
      fun t ht => ⟨hout t ht, houtputs t ht⟩⟩, ?_⟩
    cases hi : tables.input <;> cases ho : tables.output <;> simp [receive, Side.receive, hi, ho]
  · rintro ⟨⟨hslots, hin, hout⟩, rfl⟩
    have hfits : fits c.inner.inputCount tables.input = true :=
      fits_eq_true.2 fun t ht => (hin t ht).1
    have hfits' : fits c.inner.outputCount tables.output = true :=
      fits_eq_true.2 fun t ht => (hout t ht).1
    have hinner : c.inner.setTables tables.inner =
        .ok { c.inner with tables := tables.inner, garbled := true } := by
      rw [FreeXor.setTables, if_pos hslots]
    have hinput : c.input.expect c.inner.inputCount tables.input = .ok _ :=
      Side.expect_eq_ok.2 ⟨fun t ht => (hin t ht).2, rfl⟩
    have houtput : c.output.expect c.inner.outputCount tables.output = .ok _ :=
      Side.expect_eq_ok.2 ⟨fun t ht => (hout t ht).2, rfl⟩
    unfold setTables
    simp only [hfits, hfits', Bool.not_true, Bool.false_eq_true, if_false, hinner]
    have hinputs : FreeXor.inputCount { c.inner with tables := tables.inner, garbled := true } =
        c.inner.inputCount := rfl
    have houtputs : FreeXor.outputCount { c.inner with tables := tables.inner, garbled := true } =
        c.inner.outputCount := rfl
    rw [hinputs, hinput, houtputs]
    simp only [houtput]
    cases hi : tables.input <;> cases ho : tables.output <;> simp [receive, Side.receive, hi, ho]

end

/-! ## The tables of an honest garbling -/

section

variable {P G P' G' : Type}

theorem Honest.accepts {c : Layered P G} {keys : KeyMaterial} {offset : Block} {zero : Nat → Block}
    (h : c.Honest keys offset zero) {e : Layered P' G'}
    (hcircuit : e.inner.circuit = c.inner.circuit) : e.Accepts c.tables := by
  obtain ⟨_, hinner⟩ := h.inner
  refine ⟨?_, ?_, ?_⟩
  · rw [hcircuit]
    exact hinner.slots
  · rw [FreeXor.inputCount_congr hcircuit]
    exact h.input.size
  · rw [FreeXor.outputCount_congr hcircuit]
    exact h.output.size

/-- `e` has the circuit, the scheme and all tables of `c`. -/
structure HasTablesOf (e : Layered P' G') (c : Layered P G) : Prop where
  circuit : e.inner.circuit = c.inner.circuit
  hash : e.inner.hash = c.inner.hash
  scheme : e.scheme = c.scheme
  tables : e.tables = c.tables
  input : e.input.layered = c.input.layered
  output : e.output.layered = c.output.layered

theorem Encodes.received {c : Layered P G} {e : Layered P' G'} {inputPairs outputPairs : Bytes}
    {offset : Block} {zero : Nat → Block} (h : c.Encodes inputPairs outputPairs offset zero)
    (he : e.HasTablesOf c) : e.Encodes inputPairs outputPairs offset zero := by
  have htables := he.tables
  unfold Layered.tables at htables
  injection htables with hinner hinput houtput
  have hin : e.inputKeySize = c.inputKeySize := by
    rw [inputKeySize, sideKeySize, he.input, he.scheme]
    rfl
  have hout : e.outputKeySize = c.outputKeySize := by
    rw [outputKeySize, sideKeySize, he.output, he.scheme]
    rfl
  refine ⟨h.inner.received he.circuit he.hash hinner, ?_, ?_⟩
  · unfold Side.Leads FreeXor.inputPairs FreeXor.inputCount
    rw [Side.active_congr he.input hinput, he.scheme, he.circuit, hin]
    exact h.input
  · unfold Side.Leads FreeXor.outputPairs FreeXor.outputCount
    rw [Side.active_congr he.output houtput, he.scheme, he.circuit, hout]
    exact h.output

/-- Any instance over the same circuit takes over the tables of an honest garbling. -/
theorem Honest.setTables {c : Layered P G} {keys : KeyMaterial} {offset : Block}
    {zero : Nat → Block} (h : c.Honest keys offset zero) {e : Layered P' G'}
    (hcircuit : e.inner.circuit = c.inner.circuit) (hhash : e.inner.hash = c.inner.hash)
    (hscheme : e.scheme = c.scheme) : ∃ e', e.setTables c.tables = (.ok (), e') ∧
      e'.HasTablesOf c ∧ e'.garbled = true ∧ e'.inner.garbled = true := by
  refine ⟨e.receive c.tables, setTables_eq_ok.2 ⟨h.accepts hcircuit, rfl⟩, ?_, rfl, rfl⟩
  refine ⟨hcircuit, hhash, hscheme, tables_receive e c.tables, ?_, ?_⟩
  · exact (Side.receive_layered _ _).trans h.input.isSome_tables
  · exact (Side.receive_layered _ _).trans h.output.isSome_tables

end

end Layered

end Garbling
