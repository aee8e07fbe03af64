-- Runs of a circuit without their order. A run of a circuit that passes
-- the check gives every wire a value, and each gate agrees with the wires
-- that it reads. The other way round, a run can give no other values, so
-- laws of runs are proved gate by gate.
import Garbling.Proofs.Outcomes

namespace Garbling

variable {ω α β ε : Type}

/-! ## Gates on values -/

namespace Gate

/-- The gate on what `f` gives for its operands. -/
def map (f : ω → α) : Gate ω → Gate α
  | xor x y => xor (f x) (f y)
  | and x y => and (f x) (f y)
  | or x y => or (f x) (f y)
  | not x => not (f x)

theorem resolve?_eq_some {value : ω → Option α} {f : ω → α} {gate : Gate ω}
    (h : ∀ w ∈ gate.operands, value w = some (f w)) : gate.resolve? value = some (gate.map f) := by
  cases gate <;> simp_all [operands, resolve?, map]

/-- The operands of a resolved gate have values, which the gate is on. -/
theorem of_resolve? {value : ω → Option α} {gate : Gate ω} {resolved : Gate α}
    (h : gate.resolve? value = some resolved) :
    (∀ w ∈ gate.operands, ∃ a, value w = some a) ∧
      ∀ f : ω → α, (∀ w a, value w = some a → f w = a) → resolved = gate.map f := by
  cases gate with
  | not x =>
    obtain ⟨a, ha, h⟩ := Option.bind_eq_some_iff.1 h
    cases h
    refine ⟨by simp [operands, ha], ?_⟩
    intro f hf
    simp [map, hf x a ha]
  | _ x y =>
    obtain ⟨a, ha, h⟩ := Option.bind_eq_some_iff.1 h
    obtain ⟨b, hb, h⟩ := Option.bind_eq_some_iff.1 h
    cases h
    refine ⟨by simp [operands, ha, hb], ?_⟩
    intro f hf
    simp [map, hf x a ha, hf y b hb]

theorem exists_resolve? {value : ω → Option α} {gate : Gate ω}
    (h : ∀ w ∈ gate.operands, ∃ a, value w = some a) :
    ∃ resolved, gate.resolve? value = some resolved := by
  cases gate with
  | not x =>
    obtain ⟨a, ha⟩ := h x (by simp [operands])
    exact ⟨not a, by simp [resolve?, ha]⟩
  | xor x y | and x y | or x y =>
    obtain ⟨a, ha⟩ := h x (by simp [operands])
    obtain ⟨b, hb⟩ := h y (by simp [operands])
    simp [resolve?, ha, hb]

theorem resolve?_congr {value value' : ω → Option α} {gate : Gate ω}
    (h : ∀ w ∈ gate.operands, value w = value' w) : gate.resolve? value = gate.resolve? value' := by
  cases gate <;> simp_all [operands, resolve?]

theorem map_congr {f f' : ω → α} {gate : Gate ω} (h : ∀ w ∈ gate.operands, f w = f' w) :
    gate.map f = gate.map f' := by
  cases gate <;> simp_all [operands, map]

end Gate

namespace Circuit

/-! ## What the check promises -/

theorem firstUndefined_eq_none_iff {inputs number : Nat} {gates : List (Gate Nat)} :
    firstUndefined inputs number gates = none ↔
      ∀ (k : Nat) gate, gates[k]? = some gate → ∀ w ∈ gate.operands, w < inputs + number + k := by
  induction gates generalizing number with
  | nil => simp [firstUndefined]
  | cons gate gates ih =>
    unfold firstUndefined
    constructor
    · intro h k gate' hk w hw
      split at h
      · cases h
      · rename_i hfind
        cases k with
        | zero =>
          cases hk
          have := List.find?_eq_none.1 hfind w hw
          simpa using this
        | succ k =>
          have := ih.1 h k gate' hk w hw
          omega
    · intro h
      have hnone : gate.operands.find? (inputs + number ≤ ·) = none := by
        rw [List.find?_eq_none]
        intro w hw
        have := h 0 gate rfl w hw
        simpa using this
      rw [hnone]
      refine ih.2 fun k gate' hk w hw => ?_
      have := h (k + 1) gate' hk w hw
      omega

/-- The check accepts a circuit with a party in which every wire is there before it is read. -/
theorem valid_iff {c : Circuit} : c.Valid ↔ c.inputs ≠ [] ∧
    (∀ (g : Nat) gate, c.gates[g]? = some gate → ∀ w ∈ gate.operands, w < c.gateWire g) ∧
    ∀ w ∈ c.outputs, w < c.wireCount := by
  unfold Valid validate
  by_cases hp : c.inputs = []
  · simp [hp]
  · rcases hg : firstUndefined c.inputCount 0 c.gates with _ | ⟨g, w⟩
    · have hgates := firstUndefined_eq_none_iff.1 hg
      rcases ho : c.outputs.find? (c.wireCount ≤ ·) with _ | w
      · have houtputs := List.find?_eq_none.1 ho
        simp_all [gateWire]
      · have hmem := List.mem_of_find?_eq_some ho
        have hle : c.wireCount ≤ w := by simpa using List.find?_some ho
        simp only [List.isEmpty_iff, hp, if_false, ne_eq, not_false_eq_true, true_and, reduceCtorEq,
          false_iff, not_and]
        intro _ h
        exact absurd (h w hmem) (by omega)
    · simp only [List.isEmpty_iff, hp, if_false, ne_eq, not_false_eq_true, true_and, reduceCtorEq,
        false_iff, not_and]
      intro h
      have hnone : firstUndefined c.inputCount 0 c.gates = none := firstUndefined_eq_none_iff.2 h
      rw [hg] at hnone
      cases hnone

theorem Valid.operand_lt {c : Circuit} (h : c.Valid) {g : Nat} {gate : Gate Nat}
    (hg : c.gates[g]? = some gate) {w : Nat} (hw : w ∈ gate.operands) : w < c.gateWire g :=
  (valid_iff.1 h).2.1 g gate hg w hw

theorem Valid.output_lt {c : Circuit} (h : c.Valid) {w : Nat} (hw : w ∈ c.outputs) :
    w < c.wireCount := (valid_iff.1 h).2.2 w hw

/-! ## Values that agree with the gates -/

/-- The value of the wire of each gate is what `step` gives for the values that it reads. -/
def Consistent (c : Circuit) (step : Nat → Gate α → Except ε α) (value : Nat → α) : Prop :=
  ∀ (g : Nat) gate, c.gates[g]? = some gate → step g (gate.map value) = .ok (value (c.gateWire g))

/-- The bit of the wire of each gate is what the gate gives for the bits that it reads. -/
def Carries (c : Circuit) (bit : Nat → Bool) : Prop :=
  ∀ (g : Nat) gate, c.gates[g]? = some gate → bit (c.gateWire g) = (gate.map bit).bit

/-- The values of the wires below `n`, in an array. -/
def valuesBelow (value : Nat → α) (n : Nat) : Array α := ((List.range n).map value).toArray

theorem getElem?_valuesBelow {value : Nat → α} {n w : Nat} (h : w < n) :
    (valuesBelow value n)[w]? = some (value w) := by
  simp [valuesBelow, h]

/-- The values of the first wires are the front part of those of more wires. -/
theorem splitAt?_valuesBelow (value : Nat → α) {k n : Nat} (h : k ≤ n) :
    ∃ rest, splitAt? k (valuesBelow value n).toList = some ((List.range k).map value, rest) := by
  have hle : k ≤ ((List.range n).map value).length := by simpa using h
  have hfront : ((List.range n).map value).take k = (List.range k).map value := by
    rw [← List.map_take, List.take_range, Nat.min_eq_left h]
  exact ⟨_, by rw [valuesBelow, splitAt?_eq_some hle, hfront]⟩

theorem push_valuesBelow (value : Nat → α) (n : Nat) :
    (valuesBelow value n).push (value n) = valuesBelow value (n + 1) := by
  simp [valuesBelow, List.range_succ]

/-! ## Runs and consistent values -/

/-- Consistent values are those of a run. The induction is on the gates that are left, with
the wires below `n` done. -/
theorem propagateFrom_of_consistent {undefined : ε} {step : Nat → Gate α → Except ε α}
    {value : Nat → α} {gates : List (Gate Nat)} {number n : Nat}
    (hread : ∀ (k : Nat) gate, gates[k]? = some gate → ∀ w ∈ gate.operands, w < n + k)
    (hstep : ∀ (k : Nat) gate, gates[k]? = some gate →
      step (number + k) (gate.map value) = .ok (value (n + k))) :
    propagateFrom undefined step number gates (valuesBelow value n) =
      .ok (valuesBelow value (n + gates.length)) := by
  induction gates generalizing number n with
  | nil => rfl
  | cons gate gates ih =>
    have hresolve : gate.resolve? ((valuesBelow value n)[·]?) = some (gate.map value) :=
      Gate.resolve?_eq_some fun w hw => getElem?_valuesBelow (hread 0 gate rfl w hw)
    have hgate : step number (gate.map value) = .ok (value n) := hstep 0 gate rfl
    simp only [propagateFrom, hresolve, hgate, push_valuesBelow]
    rw [ih, List.length_cons, Nat.add_right_comm n 1, Nat.add_assoc]
    · intro k gate' hk w hw
      have := hread (k + 1) gate' hk w hw
      omega
    · intro k gate' hk
      have := hstep (k + 1) gate' hk
      rwa [Nat.add_assoc, Nat.add_comm 1, Nat.add_assoc, Nat.add_comm 1]

/-- A run keeps the values that it starts from, and the value that it adds for a gate is the
step on values of the run. -/
theorem of_propagateFrom {undefined : ε} {step : Nat → Gate α → Except ε α}
    {gates : List (Gate Nat)} {number : Nat} {values result : Array α}
    (h : propagateFrom undefined step number gates values = .ok result) :
    result.size = values.size + gates.length ∧
      (∀ (i : Nat) a, values[i]? = some a → result[i]? = some a) ∧
      ∀ (k : Nat) gate, gates[k]? = some gate → ∃ operands a,
        gate.resolve? (result[·]?) = some operands ∧ step (number + k) operands = .ok a ∧
          result[values.size + k]? = some a := by
  induction gates generalizing number values with
  | nil =>
    cases h
    refine ⟨rfl, fun i a ha => ha, ?_⟩
    intro k gate hk
    cases hk
  | cons gate gates ih =>
    unfold propagateFrom at h
    split at h
    · cases h
    rename_i operands hres
    split at h
    · cases h
    rename_i a hstep
    obtain ⟨hsize, hkeep, hgates⟩ := ih h
    rw [Array.size_push] at hsize hgates
    have hold : ∀ (i : Nat) b, values[i]? = some b → result[i]? = some b := by
      intro i b hb
      apply hkeep
      rcases Nat.lt_or_ge i values.size with hi | hi
      · rw [Array.getElem?_push_lt hi]
        rwa [Array.getElem?_eq_getElem hi] at hb
      · rw [Array.getElem?_eq_none hi] at hb
        cases hb
    refine ⟨by rw [hsize, List.length_cons]; omega, hold, ?_⟩
    intro k gate' hk
    cases k with
    | zero =>
      cases hk
      refine ⟨operands, a, ?_, hstep, hkeep _ _ (by simp)⟩
      obtain ⟨hvalues, _⟩ := Gate.of_resolve? hres
      -- what is read is already there, and the run keeps it
      have hsame : ∀ w ∈ gate.operands, result[w]? = values[w]? := by
        intro w hw
        obtain ⟨b, hb⟩ := hvalues w hw
        rw [hb]
        exact hold w b hb
      rw [← hres]
      exact Gate.resolve?_congr hsame
    | succ k =>
      obtain ⟨operands', a', h1, h2, h3⟩ := hgates k gate' hk
      refine ⟨operands', a', h1, ?_, ?_⟩
      · rwa [Nat.add_right_comm, Nat.add_assoc] at h2
      · rwa [Nat.add_right_comm, Nat.add_assoc] at h3

/-- A run in which every step succeeds and every wire is there succeeds as a whole. -/
theorem propagateFrom_total {undefined : ε} {step : Nat → Gate α → Except ε α}
    {gates : List (Gate Nat)} {number : Nat} {values : Array α}
    (hread : ∀ (k : Nat) gate, gates[k]? = some gate → ∀ w ∈ gate.operands, w < values.size + k)
    (hstep : ∀ number operands, ∃ a, step number operands = .ok a) :
    ∃ result, propagateFrom undefined step number gates values = .ok result := by
  induction gates generalizing number values with
  | nil => exact ⟨values, rfl⟩
  | cons gate gates ih =>
    have hvalues : ∀ w ∈ gate.operands, ∃ a, values[w]? = some a := fun w hw =>
      ⟨_, Array.getElem?_eq_getElem (hread 0 gate rfl w hw)⟩
    obtain ⟨operands, hres⟩ := Gate.exists_resolve? hvalues
    obtain ⟨a, ha⟩ := hstep number operands
    simp only [propagateFrom, hres, ha]
    apply ih
    intro k gate' hk w hw
    have := hread (k + 1) gate' hk w hw
    rw [Array.size_push]
    omega

theorem propagate_of_consistent {c : Circuit} (hv : c.Valid) {undefined : ε}
    {step : Nat → Gate α → Except ε α} {value : Nat → α} (h : c.Consistent step value) :
    c.propagate undefined step ((List.range c.inputCount).map value) =
      .ok (valuesBelow value c.wireCount) := by
  refine propagateFrom_of_consistent (fun g gate hg w hw => hv.operand_lt hg hw) ?_
  intro g gate hg
  rw [Nat.zero_add]
  exact h g gate hg

/-- The values of a run are consistent. -/
theorem consistent_of_propagate [Inhabited α] {c : Circuit} {undefined : ε}
    {step : Nat → Gate α → Except ε α} {inputs : List α} {values : Array α}
    (hin : inputs.length = c.inputCount) (h : c.propagate undefined step inputs = .ok values) :
    ∃ value, c.Consistent step value ∧ inputs = (List.range c.inputCount).map value ∧
      values = valuesBelow value c.wireCount := by
  obtain ⟨hsize, hkeep, hgates⟩ := of_propagateFrom h
  have hstart : inputs.toArray.size = c.inputCount := by simp [hin]
  rw [hstart] at hsize hgates
  refine ⟨fun w => values[w]?.getD default, ?_, ?_, ?_⟩
  · intro g gate hg
    obtain ⟨operands, a, hres, hstep, ha⟩ := hgates g gate hg
    have hmap : operands = gate.map fun w => values[w]?.getD default := by
      refine (Gate.of_resolve? hres).2 _ fun w b hb => ?_
      rw [hb, Option.getD_some]
    rw [Nat.zero_add, hmap] at hstep
    simp only [gateWire, ha, Option.getD_some]
    exact hstep
  · apply List.ext_getElem
    · simp [hin]
    · intro i h1 h2
      have := hkeep i inputs[i] (by simp [h1])
      simp [this]
  · apply Array.ext
    · simp [valuesBelow, hsize, wireCount]
    · intro i h1 h2
      simp [valuesBelow, h1]

/-- Where no step fails, there are consistent values for any inputs. -/
theorem exists_consistent [Inhabited α] {c : Circuit} (hv : c.Valid) (f : Nat → Gate α → α)
    {inputs : List α} (hin : inputs.length = c.inputCount) :
    ∃ value, c.Consistent (ε := ε) (fun g operands => .ok (f g operands)) value ∧
      inputs = (List.range c.inputCount).map value := by
  have hrun : ∃ values,
      c.propagate () (fun g operands => .ok (f g operands)) inputs = .ok values := by
    apply propagateFrom_total
    · intro g gate hg w hw
      have := hv.operand_lt hg hw
      simp only [List.size_toArray, hin]
      exact this
    · intro g operands
      exact ⟨f g operands, rfl⟩
  obtain ⟨values, h⟩ := hrun
  obtain ⟨value, hvalue, hinputs, _⟩ := consistent_of_propagate hin h
  refine ⟨value, ?_, hinputs⟩
  intro g gate hg
  have := hvalue g gate hg
  rw [Except.ok.injEq] at this ⊢
  exact this

/-- Values that are consistent with the same inputs agree on all wires before a gate if the steps
agree on the gates before it. The induction is on the wires, of which a gate reads earlier
ones only. -/
theorem Consistent.eq_of_steps {c : Circuit} (hv : c.Valid)
    {step step' : Nat → Gate α → Except ε α} {value value' : Nat → α}
    (h : c.Consistent step value) (h' : c.Consistent step' value') {n : Nat}
    (hn : n ≤ c.gates.length) (hin : ∀ w < c.inputCount, value' w = value w)
    (hstep : ∀ g < n, ∀ operands, step' g operands = step g operands) :
    ∀ w < c.gateWire n, value' w = value w := by
  intro w hw
  induction w using Nat.strongRecOn with
  | ind w ih =>
    rcases Nat.lt_or_ge w c.inputCount with hinput | hgate
    · exact hin w hinput
    obtain ⟨g, rfl⟩ : ∃ g, w = c.gateWire g := ⟨w - c.inputCount, by rw [gateWire]; omega⟩
    have hg : g < n := by
      unfold gateWire at hw
      omega
    have hget : c.gates[g]? = some c.gates[g] := List.getElem?_eq_getElem (by omega)
    have hmap : c.gates[g].map value' = c.gates[g].map value := Gate.map_congr fun x hx => by
      have hlt := hv.operand_lt hget hx
      exact ih x hlt (Nat.lt_trans hlt hw)
    have hsame := h' g _ hget
    rw [hmap, hstep g hg, h g _ hget] at hsame
    exact (Except.ok.inj hsame).symm

/-! ## Outputs -/

theorem readOutputs?_valuesBelow {c : Circuit} (hv : c.Valid) (value : Nat → α) :
    c.readOutputs? (valuesBelow value c.wireCount) = some (c.outputs.map value) :=
  mapM_some fun _ hw => getElem?_valuesBelow (hv.output_lt hw)

/-- The output bits are those of any bits of the wires that agree with the gates. -/
theorem eval_of_carries {c : Circuit} (hv : c.Valid) {bit : Nat → Bool} (h : c.Carries bit)
    {inputs : List (List Bool)} (hin : inputs.flatten = (List.range c.inputCount).map bit) :
    c.eval inputs = some (c.outputs.map bit) := by
  have hstep : c.Consistent (ε := Unit) (fun _ gate => .ok gate.bit) bit := by
    intro g gate hg
    rw [h g gate hg]
  rw [eval, hin, propagate_of_consistent hv hstep]
  exact readOutputs?_valuesBelow hv bit

theorem exists_carries {c : Circuit} (hv : c.Valid) {inputs : List Bool}
    (hin : inputs.length = c.inputCount) :
    ∃ bit, c.Carries bit ∧ inputs = (List.range c.inputCount).map bit := by
  obtain ⟨bit, hbit, hinputs⟩ :=
    exists_consistent (ε := Unit) hv (fun _ gate => gate.bit) hin
  refine ⟨bit, ?_, hinputs⟩
  intro g gate hg
  have := hbit g gate hg
  rw [Except.ok.injEq] at this
  exact this.symm

end Circuit

end Garbling
