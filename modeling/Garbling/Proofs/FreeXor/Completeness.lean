-- The audit is complete: it accepts every honest garbling of a circuit
-- with input wires, and gives the keys that garbling reported.
import Garbling.Proofs.FreeXor.Correctness

namespace Garbling.FreeXor

variable {G : Type}

/-! ## Keys that differ by the offset -/

theorem xor_shifted (offset zero : Block) : zero ^^^ (zero ^^^ offset) = offset := by
  rw [← BitVec.xor_assoc, BitVec.xor_self, BitVec.zero_xor]

theorem zeroOfPair_labels (offset zero : Block) :
    zeroOfPair offset (zero, zero ^^^ offset) = .ok zero := by
  rw [zeroOfPair, if_pos (xor_shifted offset zero)]

theorem offsetOf_labels {offset : Block} (h : offset.signal = true) {zeros : List Block}
    (hne : zeros ≠ []) :
    offsetOf (zeros.map fun zero => (zero, zero ^^^ offset)) = .ok offset := by
  cases zeros with
  | nil => exact absurd rfl hne
  | cons zero zeros =>
    simp only [List.map_cons, offsetOf, xor_shifted, h, if_true]

/-! ## The audit of honest tables -/

/-- Tables that pass the audit gate by gate pass it as a whole. -/
theorem audit_of_consistent {c : FreeXor G} {offset : Block} {zero : Nat → Block}
    (hs : offset.signal = true) (h : c.circuit.Consistent (c.auditGate offset) zero)
    (hslots : c.tables.size = c.circuit.gates.length) (hwires : 0 < c.inputCount) :
    c.audit (c.inputPairs offset zero) = .ok (c.outputPairs offset zero) := by
  have hpairs : pairUp (Block.many (c.inputPairs offset zero)) =
      ((List.range c.inputCount).map zero).map fun zero => (zero, zero ^^^ offset) := by
    rw [← pairUp_many_labelPair, List.flatMap_map]
    rfl
  have hoffset : offsetOf (pairUp (Block.many (c.inputPairs offset zero))) = .ok offset := by
    rw [hpairs]
    apply offsetOf_labels hs
    intro hnil
    have := congrArg List.length hnil
    simp only [List.length_map, List.length_range, List.length_nil] at this
    omega
  have hzeros : (pairUp (Block.many (c.inputPairs offset zero))).mapM (zeroOfPair offset) =
      .ok ((List.range c.inputCount).map zero) := by
    rw [hpairs, mapM_eq_ok, List.map_map]
    exact List.map_congr_left fun w _ => zeroOfPair_labels offset w
  unfold audit
  refine guard_eq_ok.2 ⟨by simp [length_inputPairs], ?_⟩
  refine guard_eq_ok.2 ⟨by simp [hslots], ?_⟩
  refine bind_eq_ok.2 ⟨offset, hoffset, ?_⟩
  refine bind_eq_ok.2 ⟨_, hzeros, ?_⟩
  refine bind_eq_ok.2 ⟨_, Circuit.propagate_of_consistent c.valid h, ?_⟩
  refine bind_eq_ok.2 ⟨_, auditRange_eq_ok.2 (Circuit.readOutputs?_valuesBelow c.valid zero), ?_⟩
  rw [pure_eq_ok, List.flatMap_map]
  rfl

end Garbling.FreeXor
