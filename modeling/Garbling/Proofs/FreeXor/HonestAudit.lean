-- The audit of what was garbled honestly. It accepts and gives the
-- reported keys as soon as there is one input wire, whatever the parties
-- are. A circuit without input wires has no gates and no outputs either:
-- it is garbled and evaluated, but the audit finds no offset in its keys.
import Garbling.Proofs.FreeXor.Completeness
import Garbling.Proofs.FreeXor.Translation

namespace Garbling

theorem Gate.exists_operand {ω : Type} (gate : Gate ω) : ∃ w, w ∈ gate.operands := by
  cases gate with
  | not x | xor x _ | and x _ | or x _ => exact ⟨x, List.mem_cons_self⟩

/-- Without input wires there is nothing that a gate or an output could read. -/
theorem Circuit.Valid.empty_of_no_inputs {c : Circuit} (hv : c.Valid) (h : c.inputCount = 0) :
    c.gates = [] ∧ c.outputs = [] := by
  have hgates : c.gates = [] := by
    rcases hg : c.gates with _ | ⟨gate, gates⟩
    · rfl
    · obtain ⟨w, hw⟩ := gate.exists_operand
      have hfirst : c.gates[0]? = some gate := by
        rw [hg]
        rfl
      have hlt := hv.operand_lt hfirst hw
      rw [gateWire, h] at hlt
      exact absurd hlt (Nat.not_lt_zero w)
  refine ⟨hgates, List.eq_nil_iff_forall_not_mem.2 fun w hw => ?_⟩
  have hlt := hv.output_lt hw
  rw [wireCount, h, hgates] at hlt
  exact absurd hlt (Nat.not_lt_zero w)

namespace FreeXor

variable {G : Type}

/-! ## With an input wire -/

section

variable {c : FreeXor G} {keys : KeyMaterial} {offset : Block} {zero : Nat → Block}

theorem Honest.internalVerify (h : c.Honest keys offset zero) (hwires : 0 < c.inputCount) :
    c.internalVerify keys.inputKeys = some keys.outputKeys := by
  rw [FreeXor.internalVerify, toOption_eq_some, h.inputKeys, h.outputKeys]
  exact audit_of_consistent h.signal h.audits h.slots hwires

theorem Honest.verify (h : c.Honest keys offset zero) (hwires : 0 < c.inputCount) :
    c.verify keys.inputKeys = true := by
  simp only [FreeXor.verify, h.internalVerify hwires]
  rw [h.outputKeys]
  exact verifyTranslation_of_translates h.signal h.translates

end

/-! ## Without input wires -/

/-- There is no pair of keys that could give the offset, so no keys pass. -/
theorem internalVerify_of_no_inputs {c : FreeXor G} (h : c.inputCount = 0) (pairs : Bytes) :
    c.internalVerify pairs = none := by
  rcases haudit : c.audit pairs with e | outputs
  · rw [internalVerify, haudit]
    rfl
  · unfold audit at haudit
    obtain ⟨hlen, haudit⟩ := guard_eq_ok.1 haudit
    obtain ⟨_, haudit⟩ := guard_eq_ok.1 haudit
    obtain ⟨offset, hoffset, _⟩ := bind_eq_ok.1 haudit
    have hnil : pairs = [] := by
      rw [h] at hlen
      exact List.length_eq_zero_iff.1 (Decidable.not_not.1 hlen)
    subst hnil
    cases hoffset

theorem verify_of_no_inputs {c : FreeXor G} (h : c.inputCount = 0) (pairs : Bytes) :
    c.verify pairs = false := by
  simp only [verify, internalVerify_of_no_inputs h]

/-- Such a circuit still evaluates: no keys lead to no keys. -/
theorem Honest.compute_of_no_inputs {c : FreeXor G} {keys : KeyMaterial} {offset : Block}
    {zero : Nat → Block} (honest : c.Honest keys offset zero) (h : c.inputCount = 0) :
    keys = ⟨[], [], []⟩ ∧ c.compute [] = .ok [] := by
  obtain ⟨hgates, houtputs⟩ := c.valid.empty_of_no_inputs h
  constructor
  · have hin : keys.inputKeys = [] := by
      rw [honest.inputKeys, inputPairs, h]
      rfl
    have hout : keys.outputKeys = [] := by
      rw [honest.outputKeys, outputPairs, houtputs]
      rfl
    have htranslation : keys.translation = [] := by
      rw [honest.translation, honest.translates, houtputs]
      rfl
    cases keys
    simp_all
  · unfold compute
    refine guard_eq_ok.2 ⟨by simp [honest.garbled], ?_⟩
    refine guard_eq_ok.2 ⟨by simp [h], ?_⟩
    refine bind_eq_ok.2 ⟨#[], ?_, ?_⟩
    · rw [Circuit.propagate, hgates]
      rfl
    · rw [Circuit.readOutputs?, houtputs]
      rfl

/-! ## The exact condition -/

/-- After any garbling, whatever the parties, gates and outputs: the audit gives the reported keys
of the outputs, and the whole check passes, exactly if there is an input wire. Without one there
are no gates, no outputs and no keys at all, evaluation succeeds, and the audit refuses any keys. -/
theorem honest_garbling_passes_its_audit_iff_there_is_an_input_wire [Generator G]
    {c c' : FreeXor G} {keys : KeyMaterial} (h : c.Garbles keys c') :
    (c'.internalVerify keys.inputKeys = some keys.outputKeys ↔ 0 < c.inputCount) ∧
    (c'.verify keys.inputKeys = true ↔ 0 < c.inputCount) ∧
    (c.inputCount = 0 → c.circuit.gates = [] ∧ c.circuit.outputs = [] ∧ keys = ⟨[], [], []⟩ ∧
      c'.compute [] = .ok [] ∧ ∀ pairs, c'.internalVerify pairs = none ∧
        c'.verify pairs = false) := by
  obtain ⟨hcircuit, _, offset, zero, honest⟩ := h.honest
  have hcount : c'.inputCount = c.inputCount := by
    rw [inputCount, hcircuit]
    rfl
  rw [← hcount]
  rcases Nat.eq_zero_or_pos c'.inputCount with hnone | hwires
  · obtain ⟨hkeys, hcompute⟩ := honest.compute_of_no_inputs hnone
    obtain ⟨hgates, houtputs⟩ := c.valid.empty_of_no_inputs (hcount.symm.trans hnone)
    have hrefused := internalVerify_of_no_inputs hnone
    have hverify := verify_of_no_inputs hnone
    refine ⟨?_, ?_, fun _ => ⟨hgates, houtputs, hkeys, hcompute, fun pairs =>
      ⟨hrefused pairs, hverify pairs⟩⟩⟩
    · simp [hrefused, hnone]
    · simp [hverify, hnone]
  · exact ⟨iff_of_true (honest.internalVerify hwires) hwires,
      iff_of_true (honest.verify hwires) hwires, fun hnone => absurd hnone (by omega)⟩

/-- One input wire, of the second of three parties, which is the output twice. -/
def doubledWire : FreeXor (StreamGenerator .aesCounter) where
  circuit := ⟨[0, 1, 0], [], [0, 0]⟩
  valid := by decide
  generator := {}

theorem garbled_doubled_wire_passes_its_audit : ∃ keys c', doubledWire.Garbles keys c' ∧
    c'.internalVerify keys.inputKeys = some keys.outputKeys ∧
    c'.verify keys.inputKeys = true := by
  obtain ⟨keys, c', hgarble⟩ := exists_garble doubledWire 7
  have h : doubledWire.Garbles keys c' := .random 7 hgarble
  have hlaw := honest_garbling_passes_its_audit_iff_there_is_an_input_wire h
  exact ⟨keys, c', h, hlaw.1.2 (by decide), hlaw.2.1.2 (by decide)⟩

/-- A party without input wires, and nothing else. -/
def noWires : FreeXor (StreamGenerator .aesCounter) where
  circuit := ⟨[0], [], []⟩
  valid := by decide
  generator := {}

theorem garbling_without_input_wires_fails_its_audit : ∃ keys c',
    noWires.garbleSeeded (Bytes.zeros 16) = (.ok keys, c') ∧ noWires.Garbles keys c' ∧
    c'.compute [] = .ok [] ∧ c'.internalVerify keys.inputKeys = none ∧
    c'.verify keys.inputKeys = false := by
  have hseeded : ∃ keys c', noWires.garbleSeeded (Bytes.zeros 16) = (.ok keys, c') :=
    ⟨_, _, rfl⟩
  obtain ⟨keys, c', hgarble⟩ := hseeded
  have hgarbles : noWires.Garbles keys c' := .seeded _ hgarble
  obtain ⟨hcircuit, _, offset, zero, honest⟩ := hgarbles.honest
  have hnone : c'.inputCount = 0 := by
    rw [inputCount, hcircuit]
    rfl
  exact ⟨keys, c', hgarble, hgarbles, (honest.compute_of_no_inputs hnone).2,
    internalVerify_of_no_inputs hnone _, verify_of_no_inputs hnone _⟩

end FreeXor

end Garbling
