-- What the check of a circuit decides. It accepts a circuit with a party
-- exactly if its evaluation finds every wire that it reads, and otherwise
-- it names the first wire, in the order of evaluation, that is missing.
import Garbling.Proofs.Circuit.Valuation

namespace Garbling.Circuit

variable {α ε : Type}

/-! ## Evaluation finds its wires -/

/-- The first `n` gates read wires before their own only. -/
def DefinedBefore (c : Circuit) (n : Nat) : Prop :=
  ∀ (g : Nat), g < n → ∀ gate, c.gates[g]? = some gate → ∀ w ∈ gate.operands, w < c.gateWire g

theorem definedBefore_all {c : Circuit} : c.DefinedBefore c.gates.length ↔
    ∀ (g : Nat) gate, c.gates[g]? = some gate → ∀ w ∈ gate.operands, w < c.gateWire g :=
  ⟨fun h g gate hg => h g (List.getElem?_eq_some_iff.1 hg).1 gate hg,
    fun h g _ gate hg => h g gate hg⟩

/-- In a run that succeeds, every gate has found its operands among the wires before it. -/
theorem lt_of_propagateFrom {undefined : ε} {step : Nat → Gate α → Except ε α}
    {gates : List (Gate Nat)} {number : Nat} {values result : Array α}
    (h : propagateFrom undefined step number gates values = .ok result) :
    ∀ (k : Nat) gate, gates[k]? = some gate → ∀ w ∈ gate.operands, w < values.size + k := by
  induction gates generalizing number values with
  | nil =>
    intro k gate hk
    cases hk
  | cons gate gates ih =>
    intro k gate' hk w hw
    unfold propagateFrom at h
    split at h
    · cases h
    rename_i operands hres
    split at h
    · cases h
    cases k with
    | zero =>
      cases hk
      obtain ⟨a, ha⟩ := (Gate.of_resolve? hres).1 w hw
      exact (Array.getElem?_eq_some_iff.1 ha).1
    | succ k =>
      have := ih h k gate' hk w hw
      rw [Array.size_push] at this
      omega

/-- The outputs can be read if each of them is one of the values. -/
theorem exists_readOutputs?_iff {c : Circuit} {values : Array α} :
    (∃ outputs, c.readOutputs? values = some outputs) ↔ ∀ w ∈ c.outputs, w < values.size := by
  unfold readOutputs?
  induction c.outputs with
  | nil => simp
  | cons w wires ih =>
    rw [List.forall_mem_cons, ← ih, List.mapM_cons]
    constructor
    · rintro ⟨outputs, h⟩
      obtain ⟨a, ha, h⟩ := Option.bind_eq_some_iff.1 h
      obtain ⟨rest, hrest, _⟩ := Option.bind_eq_some_iff.1 h
      exact ⟨(Array.getElem?_eq_some_iff.1 ha).1, rest, hrest⟩
    · rintro ⟨hw, rest, hrest⟩
      exact ⟨values[w] :: rest, by simp [Array.getElem?_eq_getElem hw, hrest]⟩

/-- On as many bits as there are input wires, evaluation succeeds exactly if all gates and all
outputs read wires that are there. -/
theorem exists_eval_iff {c : Circuit} {inputs : List (List Bool)}
    (hin : inputs.flatten.length = c.inputCount) : (∃ bits, c.eval inputs = some bits) ↔
      c.DefinedBefore c.gates.length ∧ ∀ w ∈ c.outputs, w < c.wireCount := by
  have hstart : inputs.flatten.toArray.size = c.inputCount := by
    rw [List.size_toArray, hin]
  constructor
  · rintro ⟨bits, h⟩
    obtain ⟨values, hrun, houtputs⟩ := Option.bind_eq_some_iff.1 h
    have hrun := toOption_eq_some.1 hrun
    have hsize := (of_propagateFrom hrun).1
    have hread := lt_of_propagateFrom hrun
    rw [hstart] at hsize hread
    refine ⟨definedBefore_all.2 hread, ?_⟩
    rw [wireCount, ← hsize]
    exact exists_readOutputs?_iff.1 ⟨bits, houtputs⟩
  · rintro ⟨hgates, houtputs⟩
    have hrun : ∃ values, c.propagate () (fun _ gate => .ok gate.bit) inputs.flatten =
        .ok values := by
      refine propagateFrom_total ?_ fun _ operands => ⟨operands.bit, rfl⟩
      rw [hstart]
      exact definedBefore_all.1 hgates
    obtain ⟨values, hvalues⟩ := hrun
    have hsize := (of_propagateFrom hvalues).1
    rw [hstart] at hsize
    rw [wireCount, ← hsize] at houtputs
    obtain ⟨bits, hbits⟩ := exists_readOutputs?_iff.2 houtputs
    exact ⟨bits, Option.bind_eq_some_iff.2 ⟨values, toOption_eq_some.2 hvalues, hbits⟩⟩

/-! ## The first wire that is missing -/

/-- The wire is the first in the list that is not below the bound. -/
def FirstNotBelow (bound : Nat) (wires : List Nat) (w : Nat) : Prop :=
  ∃ before after, wires = before ++ w :: after ∧ bound ≤ w ∧ ∀ x ∈ before, x < bound

theorem find?_eq_some_iff_firstNotBelow {bound w : Nat} {wires : List Nat} :
    wires.find? (bound ≤ ·) = some w ↔ FirstNotBelow bound wires w := by
  simp only [List.find?_eq_some_iff_append, FirstNotBelow, decide_eq_true_eq, Bool.not_eq_true',
    decide_eq_false_iff_not, Nat.not_le]
  constructor
  · rintro ⟨hle, before, after, hsplit, hbefore⟩
    exact ⟨before, after, hsplit, hle, hbefore⟩
  · rintro ⟨before, after, hsplit, hle, hbefore⟩
    exact ⟨hle, before, after, hsplit, hbefore⟩

theorem find?_eq_none_iff_below {bound : Nat} {wires : List Nat} :
    wires.find? (bound ≤ ·) = none ↔ ∀ w ∈ wires, w < bound := by
  simp [List.find?_eq_none]

/-- Of some gates that come after `bound` wires, gate `k` is the first with an operand that is not
before it, and `w` is the first of its operands that is not. -/
def StopsAt (bound : Nat) (gates : List (Gate Nat)) (k w : Nat) : Prop :=
  (∃ gate, gates[k]? = some gate ∧ FirstNotBelow (bound + k) gate.operands w) ∧
  ∀ j < k, ∀ gate, gates[j]? = some gate → ∀ x ∈ gate.operands, x < bound + j

section

variable {bound k w : Nat} {gate : Gate Nat} {gates : List (Gate Nat)}

theorem stopsAt_cons_zero :
    StopsAt bound (gate :: gates) 0 w ↔ FirstNotBelow bound gate.operands w := by
  simp [StopsAt]

theorem stopsAt_cons_succ : StopsAt bound (gate :: gates) (k + 1) w ↔
    (∀ x ∈ gate.operands, x < bound) ∧ StopsAt (bound + 1) gates k w := by
  have hshift : ∀ j, bound + (j + 1) = bound + 1 + j := fun j => by omega
  unfold StopsAt
  rw [List.getElem?_cons_succ, hshift]
  constructor
  · rintro ⟨hfirst, hbefore⟩
    refine ⟨hbefore 0 (Nat.succ_pos k) gate rfl, hfirst, fun j hj gate' hget x hx => ?_⟩
    rw [← hshift]
    exact hbefore (j + 1) (Nat.succ_lt_succ hj) gate' hget x hx
  · rintro ⟨hbelow, hfirst, hbefore⟩
    refine ⟨hfirst, fun j hj gate' hget x hx => ?_⟩
    cases j with
    | zero =>
      cases hget
      exact hbelow x hx
    | succ j =>
      rw [hshift]
      exact hbefore j (Nat.lt_of_succ_lt_succ hj) gate' hget x hx

end

/-- The induction is on the gates, of which the first has the given number. -/
theorem firstUndefined_eq_some_iff {inputs number g w : Nat} {gates : List (Gate Nat)} :
    firstUndefined inputs number gates = some (g, w) ↔
      ∃ k, g = number + k ∧ StopsAt (inputs + number) gates k w := by
  induction gates generalizing number with
  | nil => simp [firstUndefined, StopsAt]
  | cons gate gates ih =>
    unfold firstUndefined
    rcases hfind : gate.operands.find? (inputs + number ≤ ·) with _ | wire
    · have hbelow := find?_eq_none_iff_below.1 hfind
      simp only
      rw [ih]
      constructor
      · rintro ⟨k, rfl, hk⟩
        exact ⟨k + 1, by omega, stopsAt_cons_succ.2 ⟨hbelow, hk⟩⟩
      · rintro ⟨k, rfl, hk⟩
        cases k with
        | zero =>
          rw [stopsAt_cons_zero, ← find?_eq_some_iff_firstNotBelow, hfind] at hk
          cases hk
        | succ k => exact ⟨k, by omega, (stopsAt_cons_succ.1 hk).2⟩
    · simp only [Option.some.injEq, Prod.mk.injEq]
      constructor
      · rintro ⟨rfl, rfl⟩
        exact ⟨0, rfl, stopsAt_cons_zero.2 (find?_eq_some_iff_firstNotBelow.1 hfind)⟩
      · rintro ⟨k, rfl, hk⟩
        cases k with
        | zero =>
          rw [stopsAt_cons_zero, ← find?_eq_some_iff_firstNotBelow, hfind] at hk
          exact ⟨rfl, Option.some.inj hk⟩
        | succ k =>
          -- the first gate has such an operand itself
          rw [find?_eq_none_iff_below.2 (stopsAt_cons_succ.1 hk).1] at hfind
          cases hfind

/-- What an error of the check says about a circuit. -/
def HasFault (c : Circuit) : CircuitError → Prop
  | .noParties => c.inputs = []
  | .undefinedWire g w => c.inputs ≠ [] ∧ c.DefinedBefore g ∧
      ∃ gate, c.gates[g]? = some gate ∧ FirstNotBelow (c.gateWire g) gate.operands w
  | .missingOutput w => c.inputs ≠ [] ∧ c.DefinedBefore c.gates.length ∧
      FirstNotBelow c.wireCount c.outputs w

theorem firstUndefined_eq_some_iff_hasFault {c : Circuit} (hp : c.inputs ≠ []) {g w : Nat} :
    firstUndefined c.inputCount 0 c.gates = some (g, w) ↔ c.HasFault (.undefinedWire g w) := by
  rw [firstUndefined_eq_some_iff]
  constructor
  · rintro ⟨k, rfl, hfirst, hbefore⟩
    rw [Nat.zero_add]
    exact ⟨hp, hbefore, hfirst⟩
  · rintro ⟨_, hbefore, hfirst⟩
    exact ⟨g, (Nat.zero_add g).symm, hfirst, hbefore⟩

theorem firstUndefined_eq_none_iff_definedBefore {c : Circuit} :
    firstUndefined c.inputCount 0 c.gates = none ↔ c.DefinedBefore c.gates.length := by
  rw [firstUndefined_eq_none_iff, definedBefore_all]
  rfl

theorem hasFault_of_validate {c : Circuit} {e : CircuitError} (h : c.validate = .error e) :
    c.HasFault e := by
  unfold validate at h
  split at h
  · rename_i hempty
    cases h
    exact List.isEmpty_iff.1 hempty
  · rename_i hempty
    have hp : c.inputs ≠ [] := fun hnil => hempty (List.isEmpty_iff.2 hnil)
    split at h
    · rename_i g w hg
      cases h
      exact (firstUndefined_eq_some_iff_hasFault hp).1 hg
    · rename_i hg
      split at h
      · rename_i w ho
        cases h
        exact ⟨hp, firstUndefined_eq_none_iff_definedBefore.1 hg,
          find?_eq_some_iff_firstNotBelow.1 ho⟩
      · cases h

theorem validate_of_hasFault {c : Circuit} {e : CircuitError} (h : c.HasFault e) :
    c.validate = .error e := by
  unfold validate
  cases e with
  | noParties => rw [if_pos (List.isEmpty_iff.2 h)]
  | undefinedWire g w =>
    rw [if_neg fun hempty => h.1 (List.isEmpty_iff.1 hempty),
      (firstUndefined_eq_some_iff_hasFault h.1).2 h]
  | missingOutput w =>
    obtain ⟨hp, hdefined, hfirst⟩ := h
    rw [if_neg fun hempty => hp (List.isEmpty_iff.1 hempty),
      firstUndefined_eq_none_iff_definedBefore.2 hdefined,
      find?_eq_some_iff_firstNotBelow.2 hfirst]

/-! ## The check and the evaluation -/

/-- On any bits for the input wires, whatever the circuit: the check accepts it exactly if there is
a party and its evaluation succeeds. A circuit that is refused has the fault that the error names,
and no other error is given for it: no party, else the first operand of the first gate that is not
before the gate, else the first output that is no wire. -/
theorem check_accepts_exactly_what_evaluates {c : Circuit} {inputs : List (List Bool)}
    (hin : inputs.flatten.length = c.inputCount) :
    (c.validate = .ok () ↔ c.inputs ≠ [] ∧ ∃ bits, c.eval inputs = some bits) ∧
    ∀ e, c.validate = .error e ↔ c.HasFault e := by
  refine ⟨?_, fun e => ⟨hasFault_of_validate, validate_of_hasFault⟩⟩
  have hvalid : c.validate = .ok () ↔ c.Valid := Iff.rfl
  rw [hvalid, valid_iff, exists_eval_iff hin, definedBefore_all]

theorem gate_on_its_own_wire_is_refused_and_has_no_value :
    let c : Circuit := ⟨[2, 0], [.not 1, .and 0 3], [3]⟩
    c.HasFault (.undefinedWire 1 3) ∧ c.eval [[true, false], []] = none := by
  intro c
  have hin : [[true, false], []].flatten.length = c.inputCount := rfl
  have hlaw := check_accepts_exactly_what_evaluates hin
  have hrefused : c.validate = .error (.undefinedWire 1 3) := rfl
  refine ⟨(hlaw.2 _).1 hrefused, ?_⟩
  cases heval : c.eval [[true, false], []] with
  | none => rfl
  | some bits =>
    rw [hlaw.1.2 ⟨by decide, bits, heval⟩] at hrefused
    cases hrefused

end Garbling.Circuit
