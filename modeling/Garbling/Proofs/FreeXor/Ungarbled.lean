-- A circuit that nothing has supplied with tables. Evaluation looks at a
-- flag and refuses it. The audit counts slots instead, and a circuit
-- without gates needs none: it passes for all keys with a common offset.
import Garbling.Proofs.FreeXor.HonestAudit
import Garbling.Proofs.Sessions

namespace Garbling

/-- The request is to make tables or to take them over. -/
def Request.suppliesTables {O T : Type} : Request O T → Bool
  | garble _ _ | garbleSeeded _ | setTables _ => true
  | _ => false

namespace FreeXor

variable {G : Type}

/-! ## Without tables -/

/-- Nothing has supplied the circuit with tables. -/
structure Ungarbled (c : FreeXor G) (circuit : Circuit) : Prop where
  circuit : c.circuit = circuit
  tables : c.tables = {}
  garbled : c.garbled = false

theorem ungarbled_of_ofCircuit {c : FreeXor G} {circuit : Circuit} {generator : G}
    (h : ofCircuit circuit generator = .ok c) : c.Ungarbled circuit := by
  unfold ofCircuit at h
  split at h
  · cases h
    exact ⟨rfl, rfl, rfl⟩
  · cases h

theorem compute_of_not_garbled {c : FreeXor G} (h : c.garbled = false) (keys : Bytes) :
    c.compute keys = .error .notGarbled := by
  unfold compute
  rw [h]
  rfl

section

variable [Generator G]

/-- A garbling from a seed that fails has changed the generator at most. -/
theorem garbleSeeded_error {c : FreeXor G} {seed : Bytes} {e : Error}
    (h : (c.garbleSeeded seed).1 = .error e) :
    ∃ generator, (c.garbleSeeded seed).2 = { c with generator } := by
  unfold garbleSeeded at h ⊢
  split
  · exact ⟨c.generator, rfl⟩
  · split
    · exact ⟨_, rfl⟩
    · rename_i generator hkey _ key drawn hdraw
      obtain ⟨keys, made, hgarble⟩ := exists_garble { c with generator := drawn }
        (Block.ofBytes key)
      simp only [hkey, hdraw, hgarble] at h
      cases h

/-- A request leaves the circuit without tables unless it is granted some. -/
theorem Ungarbled.respond {c : FreeXor G} {circuit : Circuit} (h : c.Ungarbled circuit)
    {request : Request Bytes Tables}
    (hno : ¬ (request.suppliesTables = true ∧ ∃ answer, (c.respond request).1 = .ok answer)) :
    (c.respond request).2.Ungarbled circuit := by
  cases request with
  | garble key rows =>
    obtain ⟨keys, made, hgarble⟩ := c.exists_garble key
    refine absurd ⟨rfl, .keys keys, ?_⟩ hno
    simp only [FreeXor.respond, hgarble]
    rfl
  | garbleSeeded seed =>
    cases hgarble : (c.garbleSeeded seed).1 with
    | ok keys =>
      refine absurd ⟨rfl, .keys keys, ?_⟩ hno
      simp only [FreeXor.respond, hgarble]
      rfl
    | error e =>
      obtain ⟨generator, hleft⟩ := garbleSeeded_error hgarble
      simp only [FreeXor.respond, hleft]
      exact ⟨h.circuit, h.tables, h.garbled⟩
  | setTables tables =>
    cases hset : c.setTables tables with
    | ok made =>
      refine absurd ⟨rfl, .done, ?_⟩ hno
      simp only [FreeXor.respond, hset]
    | error e =>
      simp only [FreeXor.respond, hset]
      exact h
  | setTranslation translation => exact ⟨h.circuit, h.tables, h.garbled⟩
  | _ => exact h

theorem Ungarbled.after {c : FreeXor G} {circuit : Circuit} (h : c.Ungarbled circuit)
    {requests : List (Request Bytes Tables)}
    (hno : ¬ Session.Granted FreeXor.respond Request.suppliesTables c requests) :
    (Session.after FreeXor.respond c requests).Ungarbled circuit :=
  Session.after_of_not_granted (fun c => c.Ungarbled circuit) (fun _ _ h => h.respond) h hno

end

/-! ## What the audit makes of it -/

/-- There is an input wire but no gate, and the two keys of each input wire differ by the offset,
which changes the signal. -/
structure Gateless (c : FreeXor G) (pairs : Bytes) (offset : Block) (zero : Nat → Block) :
    Prop where
  gates : c.circuit.gates = []
  wires : 0 < c.inputCount
  signal : offset.signal = true
  pairs : pairs = c.inputPairs offset zero

/-- With no slots at all, the audit accepts the keys of a circuit without gates only. -/
theorem audit_eq_ok_of_no_slots {c : FreeXor G} (hslots : c.tables.size = 0)
    {pairs outputs : Bytes} : c.audit pairs = .ok outputs ↔
      ∃ offset zero, c.Gateless pairs offset zero ∧ outputs = c.outputPairs offset zero := by
  constructor
  · intro h
    obtain ⟨offset, zero, hsignal, _, hpairs, houtputs⟩ := consistent_of_audit h
    refine ⟨offset, zero, ⟨?_, ?_, hsignal, hpairs⟩, houtputs⟩
    · unfold audit at h
      obtain ⟨_, h⟩ := guard_eq_ok.1 h
      obtain ⟨hsize, _⟩ := guard_eq_ok.1 h
      rw [hslots] at hsize
      exact List.length_eq_zero_iff.1 (Decidable.not_not.1 hsize).symm
    · refine Nat.pos_of_ne_zero fun hnone => ?_
      have hrefused := internalVerify_of_no_inputs hnone pairs
      rw [internalVerify, toOption_eq_some.2 h] at hrefused
      cases hrefused
  · rintro ⟨offset, zero, h, rfl⟩
    rw [h.pairs]
    refine audit_of_consistent h.signal ?_ ?_ h.wires
    · intro g gate hg
      rw [h.gates] at hg
      cases hg
    · rw [hslots, h.gates]
      rfl

theorem internalVerify_of_no_slots {c : FreeXor G} (hslots : c.tables.size = 0)
    {pairs outputs : Bytes} : c.internalVerify pairs = some outputs ↔
      ∃ offset zero, c.Gateless pairs offset zero ∧ outputs = c.outputPairs offset zero := by
  rw [internalVerify, toOption_eq_some, audit_eq_ok_of_no_slots hslots]

theorem verify_of_no_slots {c : FreeXor G} (hslots : c.tables.size = 0) {pairs : Bytes} :
    c.verify pairs = true ↔ ∃ offset zero, c.Gateless pairs offset zero ∧ c.Translates zero := by
  unfold verify
  constructor
  · intro h
    split at h
    · rename_i outputs hverify
      obtain ⟨offset, zero, hgateless, rfl⟩ := (internalVerify_of_no_slots hslots).1 hverify
      exact ⟨offset, zero, hgateless, translates_of_verifyTranslation h⟩
    · cases h
  · rintro ⟨offset, zero, h, ht⟩
    rw [(internalVerify_of_no_slots hslots).2 ⟨offset, zero, h, rfl⟩]
    exact verifyTranslation_of_translates h.signal ht

/-- There are keys that the audit accepts if and only if there is an input wire but no gate. -/
theorem exists_internalVerify_iff {c : FreeXor G} (hslots : c.tables.size = 0) :
    (∃ pairs outputs, c.internalVerify pairs = some outputs) ↔
      c.circuit.gates = [] ∧ 0 < c.inputCount := by
  constructor
  · rintro ⟨pairs, outputs, h⟩
    obtain ⟨offset, zero, hgateless, _⟩ := (internalVerify_of_no_slots hslots).1 h
    exact ⟨hgateless.gates, hgateless.wires⟩
  · rintro ⟨hgates, hwires⟩
    refine ⟨c.inputPairs 1 fun _ => 0, c.outputPairs 1 fun _ => 0, ?_⟩
    exact (internalVerify_of_no_slots hslots).2 ⟨1, _, ⟨hgates, hwires, by decide, rfl⟩, rfl⟩

end FreeXor

end Garbling
