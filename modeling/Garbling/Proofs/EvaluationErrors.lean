-- What an evaluation can fail with. It complains about the length of its
-- input if and only if that is not one key for each input wire, and about
-- missing tables only if they are missing as a whole. Otherwise a table is
-- missing or has the wrong size, a key opens nothing, or the scheme gives
-- an error. It never reads past an end: each read comes after a check of
-- the length that it relies on.
import Garbling.Proofs.FreeXor.Commitment
import Garbling.Proofs.Layered.Evaluation

namespace Garbling

/-- The errors of an evaluation that goes wrong on the way, after it was given enough keys. -/
def Error.OnTheWay : Error → Prop
  | invalidWireValue _ | encryption _ | missingTable _
  | tablesMismatch .gateTableSize | tablesMismatch .identityTableSize => True
  | _ => False

theorem Error.not_onTheWay_notAllInputsSet (m n : Nat) : ¬ OnTheWay (notAllInputsSet m n) :=
  fun h => h

theorem Error.not_onTheWay_notGarbled : ¬ OnTheWay notGarbled := fun h => h

theorem Error.not_onTheWay_outOfRange : ¬ OnTheWay outOfRange := fun h => h

theorem Error.OnTheWay.ne {e e' : Error} (h : e'.OnTheWay) (he : ¬ e.OnTheWay) : e' ≠ e := by
  rintro rfl
  exact he h

variable {e : Error}

/-! ## Identity gates -/

namespace IdentityGate

variable {s : Scheme} {k : Keying} {table : Bytes}

/-- A table of the right length has four parts, which the scheme decrypts. -/
theorem decryptPart_eq (hlen : table.length = tableSize s) (k : Keying) {part : Nat}
    (hpart : part < 4) : ∃ ciphertext,
      decryptPart s k table part = (s.decrypt k ciphertext).mapError Error.encryption := by
  have hend : (part + 1) * s.cipherSize ≤ 4 * s.cipherSize := Nat.mul_le_mul_right _ hpart
  rw [Nat.succ_mul, ← tableSize, ← hlen] at hend
  have hslice := Bytes.slice?_eq_some_iff.2 ⟨hend, rfl⟩
  exact ⟨_, by rw [decryptPart, inRange_eq_ok.2 hslice]; rfl⟩

theorem length_of_compute {gate : UInt32} {key output : Bytes} {outputSize : Nat}
    (h : compute s gate table key outputSize = .ok output) : output.length = outputSize := by
  unfold compute at h
  obtain ⟨_, h⟩ := guard_eq_ok.1 h
  obtain ⟨k, _, h⟩ := bind_eq_ok.1 h
  obtain ⟨⟨first, second⟩, _, h⟩ := bind_eq_ok.1 h
  obtain ⟨_, h⟩ := guard_eq_ok.1 h
  obtain ⟨found, hpayload, h⟩ := bind_eq_ok.1 h
  cases found with
  | none => cases h
  | some key =>
    cases h
    exact length_of_payload? hpayload

variable (he : ¬ e.OnTheWay)
include he

theorem encryption_ne (cause : SchemeError) : Error.encryption cause ≠ e :=
  Error.OnTheWay.ne trivial he

theorem avoids_keying (s : Scheme) (gate : UInt32) (key : Bytes) : Avoids e (keying s gate key) :=
  (avoids_mapError (encryption_ne he) _).bind fun _ => avoids_ok _ _

theorem avoids_decryptPart (hlen : table.length = tableSize s) (k : Keying) {part : Nat}
    (hpart : part < 4) : Avoids e (decryptPart s k table part) := by
  obtain ⟨ciphertext, h⟩ := decryptPart_eq hlen k hpart
  rw [h]
  exact avoids_mapError (encryption_ne he) _

theorem avoids_openedRows (hlen : table.length = tableSize s) (k : Keying) :
    Avoids e (openedRows s k table) := by
  have hopens : ∀ row < 2, Avoids e (opens s k table row) := fun row hrow =>
    (avoids_decryptPart he hlen k (by omega)).bind fun _ => avoids_ok _ _
  exact (hopens 0 (by decide)).bind fun _ => (hopens 1 (by decide)).bind fun _ => avoids_ok _ _

/-- The decrypted payload may be shorter than the output key. It is then not split. -/
theorem avoids_payload? (hlen : table.length = tableSize s) (k : Keying) {row : Nat}
    (hrow : row < 2) (outputSize : Nat) : Avoids e (payload? s k table row outputSize) := by
  rw [payload?_eq]
  refine (avoids_decryptPart he hlen k (by omega)).bind fun plain => ?_
  split
  · exact avoids_ok _ _
  · exact avoids_ok _ _

theorem avoids_compute (s : Scheme) (gate : UInt32) (table key : Bytes) (outputSize : Nat) :
    Avoids e (compute s gate table key outputSize) := by
  refine Avoids.guard_of_not (Error.OnTheWay.ne trivial he) fun hlen => ?_
  have hlen := Decidable.not_not.1 hlen
  refine (avoids_keying he s gate key).bind fun k => ?_
  refine (avoids_openedRows he hlen k).bind fun (first, second) => ?_
  have hrow : (if first then 0 else 1) < 2 := by
    split <;> decide
  refine Avoids.guard (Error.OnTheWay.ne trivial he) ?_
  refine (avoids_payload? he hlen k hrow outputSize).bind fun found => ?_
  cases found with
  | none => exact avoids_throw (Error.OnTheWay.ne trivial he)
  | some key => exact avoids_ok _ _

end IdentityGate

/-! ## Layers -/

theorem Layer.avoids_compute (he : ¬ e.OnTheWay) (s : Scheme) (tables : Tables) {wires : Nat}
    {keys : Keys} (hlen : keys.bytes.length = wires * keys.size) (outputSize : Nat) :
    Avoids e (compute s tables wires keys outputSize) := by
  refine Avoids.bind (Avoids.mapM_of_mem fun position hmem => ?_) fun outputs => avoids_ok _ _
  unfold computeAt
  split
  · exact avoids_throw (Error.OnTheWay.ne trivial he)
  · rw [Keys.keyAt?, KeyArray.keyAt?_eq_some hlen (List.mem_range.1 hmem)]
    exact IdentityGate.avoids_compute he _ _ _ _ _

theorem Layer.length_of_compute {s : Scheme} {tables : Tables} {wires : Nat} {keys : Keys}
    {outputSize : Nat} {output : Bytes}
    (h : compute s tables wires keys outputSize = .ok output) :
    output.length = wires * outputSize := by
  unfold compute at h
  obtain ⟨pieces, hpieces, h⟩ := bind_eq_ok.1 h
  have houtput : pieces.flatten = output := pure_eq_ok.1 h
  subst houtput
  obtain ⟨rfl, hgates⟩ := mapM_range_eq_ok.1 hpieces
  have hpiece : ∀ piece ∈ pieces, piece.length = outputSize := by
    intro piece hmem
    obtain ⟨i, hi, rfl⟩ := List.getElem_of_mem hmem
    have hgate := hgates i hi
    unfold computeAt at hgate
    split at hgate
    · cases hgate
    · obtain ⟨_, _, hgate⟩ := bind_eq_ok.1 hgate
      exact IdentityGate.length_of_compute hgate
  rw [List.length_flatten, List.map_congr_left hpiece, List.map_const', List.sum_replicate_nat]

/-- A side that has a layer is given one key per wire, and needs tables not to complain. -/
theorem Side.avoids_compute (he : ¬ e.OnTheWay) {side : Side}
    (htables : e = .notGarbled → side.tables.isSome = side.layered) (s : Scheme) {wires m : Nat}
    {keys : Bytes} (hlen : side.layered = true → keys.length = wires * m) (n : Nat) :
    Avoids e (side.compute s wires keys m n) := by
  unfold compute active
  cases hlayered : side.layered with
  | false => exact avoids_ok _ _
  | true =>
    cases hsome : side.tables with
    | none =>
      refine avoids_throw ?_
      rintro rfl
      have := htables rfl
      rw [hsome, hlayered] at this
      cases this
    | some tables => exact Layer.avoids_compute he s tables (hlen hlayered) n

/-! ## The inner circuit -/

namespace GateTable

/-- Two signals name one of the four rows of a table. -/
theorem open?_eq_some {table : Bytes} (hlen : table.length = size) (hash : PairHash) (gate : Nat)
    (a b : Block) : ∃ label, open? hash gate table a b = some label := by
  have hrow : rowIndex a b < 4 := by
    have ha := a.signal.toNat_lt
    have hb := b.signal.toNat_lt
    unfold rowIndex
    omega
  have hend : rowIndex a b * Block.size + Block.size ≤ table.length := by
    rw [hlen, size, Block.size]
    omega
  rw [open?, row?, Bytes.slice?_eq_some_iff.2 ⟨hend, rfl⟩]
  exact ⟨_, rfl⟩

end GateTable

namespace Circuit

variable {α ε : Type}

theorem avoids_propagateFrom {e undefined : ε} {step : Nat → Gate α → Except ε α}
    {gates : List (Gate Nat)} {number : Nat} {values : Array α}
    (hread : ∀ (k : Nat) gate, gates[k]? = some gate → ∀ w ∈ gate.operands, w < values.size + k)
    (hstep : ∀ number operands, Avoids e (step number operands)) :
    Avoids e (propagateFrom undefined step number gates values) := by
  induction gates generalizing number values with
  | nil => exact avoids_ok _ _
  | cons gate gates ih =>
    have hvalues : ∀ w ∈ gate.operands, ∃ a, values[w]? = some a := fun w hw =>
      ⟨_, Array.getElem?_eq_getElem (hread 0 gate rfl w hw)⟩
    obtain ⟨operands, hres⟩ := Gate.exists_resolve? hvalues
    simp only [propagateFrom, hres]
    cases hvalue : step number operands with
    | error e' => exact (hstep number operands).rethrow hvalue
    | ok a =>
      refine ih fun k gate' hk w hw => ?_
      have := hread (k + 1) gate' hk w hw
      rw [Array.size_push]
      omega

/-- In a circuit that passed the check, only the steps of a run can fail. -/
theorem Valid.avoids_propagate {c : Circuit} (hv : c.Valid) {e undefined : ε}
    {step : Nat → Gate α → Except ε α} (hstep : ∀ number operands, Avoids e (step number operands))
    {inputs : List α} (hin : inputs.length = c.inputCount) :
    Avoids e (c.propagate undefined step inputs) := by
  refine avoids_propagateFrom (fun g gate hg w hw => ?_) hstep
  rw [List.size_toArray, hin]
  exact hv.operand_lt hg hw

/-- All output wires have values after a run. -/
theorem Valid.exists_readOutputs? [Inhabited α] {c : Circuit} (hv : c.Valid) {undefined : ε}
    {step : Nat → Gate α → Except ε α} {inputs : List α} (hin : inputs.length = c.inputCount)
    {values : Array α} (h : c.propagate undefined step inputs = .ok values) :
    ∃ outputs, c.readOutputs? values = some outputs := by
  obtain ⟨value, _, _, rfl⟩ := consistent_of_propagate hin h
  exact ⟨_, readOutputs?_valuesBelow hv value⟩

end Circuit

namespace FreeXor

variable {G : Type}

theorem avoids_labelOf (he : ¬ e.OnTheWay) (c : FreeXor G) (number : Nat)
    (gate : Gate Block) : Avoids e (c.labelOf number gate) := by
  have hopen : ∀ a b, Avoids e (c.openTable number a b) := by
    intro a b
    unfold openTable
    split
    · exact avoids_throw (Error.OnTheWay.ne trivial he)
    · split
      · rename_i hlen
        obtain ⟨label, hlabel⟩ := GateTable.open?_eq_some hlen c.hash number a b
        exact avoids_of_eq_ok (inRange_eq_ok.2 hlabel)
      · exact avoids_throw (Error.OnTheWay.ne trivial he)
  cases gate with
  | xor x y | not x => exact avoids_ok _ _
  | and x y | or x y => exact hopen x y

/-- Given one key per input wire, a garbled circuit only fails on the way. -/
theorem avoids_compute (he : ¬ e.OnTheWay) {c : FreeXor G} {keys : Bytes}
    (hg : e = .notGarbled → c.garbled = true)
    (hcount : ∀ m n, e = .notAllInputsSet m n → keys.length = c.inputCount * keySize) :
    Avoids e (c.compute keys) := by
  refine Avoids.guard_of_imp (fun h => by simp [hg h.symm]) fun _ => ?_
  refine Avoids.guard_of_imp (fun h => not_not_intro (hcount _ _ h.symm)) fun hlen => ?_
  have hin : (Block.many keys).length = c.circuit.inputCount :=
    Block.length_many (Decidable.not_not.1 hlen)
  refine (c.valid.avoids_propagate (c.avoids_labelOf he) hin).bind_of_ok fun labels hlabels => ?_
  obtain ⟨outputs, houtputs⟩ := c.valid.exists_readOutputs? hin hlabels
  exact (avoids_of_eq_ok (inRange_eq_ok.2 houtputs)).bind fun outputs => avoids_ok _ _

/-- Evaluation asks for one key per input wire, and complains about the number of keys in no
other case. -/
theorem compute_eq_notAllInputsSet (c : FreeXor G) (keys : Bytes) :
    (∃ m n, c.compute keys = .error (.notAllInputsSet m n)) ↔
      c.garbled = true ∧ keys.length ≠ c.inputCount * keySize := by
  constructor
  · rintro ⟨m, n, h⟩
    by_cases hg : c.garbled = true
    · refine ⟨hg, fun hlen => ?_⟩
      exact avoids_compute (Error.not_onTheWay_notAllInputsSet m n) (by simp) (fun _ _ _ => hlen) h
    · unfold compute at h
      rw [if_pos (by simpa using hg)] at h
      cases h
  · rintro ⟨hg, hlen⟩
    refine ⟨c.inputCount * keySize, keys.length, ?_⟩
    unfold compute
    rw [if_neg (by simp [hg]), if_pos hlen]
    rfl

theorem length_of_compute {c : FreeXor G} {keys output : Bytes} (h : c.compute keys = .ok output) :
    output.length = c.outputCount * keySize := by
  obtain ⟨_, _, label, _, _, rfl⟩ := compute_eq_ok.1 h
  simp only [List.length_flatMap, Block.length_toBytes, List.map_const', List.length_map,
    List.sum_replicate_nat]
  rfl

end FreeXor

/-! ## The whole circuit -/

namespace Layered

variable {P G : Type}

/-- The circuit has its tables, and so has each layer. -/
structure HasTables (c : Layered P G) : Prop where
  garbled : c.garbled = true
  inner : c.inner.garbled = true
  input : c.input.tables.isSome = c.input.layered
  output : c.output.tables.isSome = c.output.layered

/-- With a layer, keys of one size come in and keys of another size come out. -/
theorem length_of_input {c : Layered P G} {keys innerKeys : Bytes}
    (hlen : keys.length = c.inner.inputCount * c.inputKeySize)
    (h : c.input.compute c.scheme c.inner.inputCount keys c.scheme.cipherSize FreeXor.keySize =
      .ok innerKeys) : innerKeys.length = c.inner.inputCount * FreeXor.keySize := by
  unfold Side.compute Side.active at h
  unfold inputKeySize sideKeySize at hlen
  cases hlayered : c.input.layered with
  | false =>
    rw [hlayered] at h hlen
    cases h
    exact hlen
  | true =>
    rw [hlayered] at h
    cases htables : c.input.tables with
    | none =>
      rw [htables] at h
      cases h
    | some tables =>
      rw [htables] at h
      exact Layer.length_of_compute h

theorem avoids_compute_of (he : ¬ e.OnTheWay) {c : Layered P G} {keys : Bytes}
    (htables : e = .notGarbled → c.HasTables)
    (hcount : ∀ m n, e = .notAllInputsSet m n → keys.length = c.inner.inputCount * c.inputKeySize) :
    Avoids e (c.compute keys) := by
  by_cases hg : c.garbled = true
  · by_cases hlen : keys.length = c.inner.inputCount * c.inputKeySize
    · rw [compute_eq hg hlen]
      have hin : c.input.layered = true →
          keys.length = c.inner.inputCount * c.scheme.cipherSize := fun hlayered => by
        rw [hlen, inputKeySize_of_layered hlayered]
      refine (Side.avoids_compute he (fun h => (htables h).input) _ hin _).bind_of_ok ?_
      intro innerKeys hinput
      -- The input layer gives as many keys as the inner circuit has wires for.
      have hinner := FreeXor.avoids_compute he (fun h => (htables h).inner)
        fun _ _ _ => length_of_input hlen hinput
      refine hinner.bind_of_ok fun inner hinner => ?_
      -- The inner circuit gives as many keys as the output layer has gates.
      have hout := FreeXor.length_of_compute hinner
      exact (Side.avoids_compute he (fun h => (htables h).output) _ (fun _ => hout) _).bind
        fun garbled => avoids_ok _ _
    · unfold compute
      rw [if_neg (by simp [hg]), if_pos hlen]
      exact avoids_throw fun h => hlen (hcount _ _ h.symm)
  · unfold compute
    rw [if_pos (by simpa using hg)]
    exact avoids_throw fun h => hg (htables h.symm).garbled

theorem compute_eq_notAllInputsSet (c : Layered P G) (keys : Bytes) :
    (∃ m n, c.compute keys = .error (.notAllInputsSet m n)) ↔
      c.garbled = true ∧ keys.length ≠ c.inner.inputCount * c.inputKeySize := by
  constructor
  · rintro ⟨m, n, h⟩
    by_cases hg : c.garbled = true
    · refine ⟨hg, fun hlen => ?_⟩
      exact avoids_compute_of (Error.not_onTheWay_notAllInputsSet m n) (by simp)
        (fun _ _ _ => hlen) h
    · unfold compute at h
      rw [if_pos (by simpa using hg)] at h
      cases h
  · rintro ⟨hg, hlen⟩
    refine ⟨c.inner.inputCount * c.inputKeySize, keys.length, ?_⟩
    unfold compute
    rw [if_neg (by simp [hg]), if_pos hlen]
    rfl

/-- An evaluation that fails does so on the way, or some tables are missing, or it was given
another number of keys than it asks for. -/
theorem onTheWay_of_compute {c : Layered P G} {keys : Bytes} (h : c.compute keys = .error e) :
    e.OnTheWay ∨ e = .notGarbled ∧ ¬ c.HasTables ∨
      (∃ m n, e = .notAllInputsSet m n) ∧ keys.length ≠ c.inner.inputCount * c.inputKeySize := by
  by_cases he : e.OnTheWay
  · exact .inl he
  refine .inr (Classical.byContradiction fun hother => ?_)
  rw [not_or] at hother
  refine avoids_compute_of he (fun hnot => ?_) (fun m n hnot => ?_) h
  · exact Classical.byContradiction fun hmissing => hother.1 ⟨hnot, hmissing⟩
  · exact Classical.byContradiction fun hlen => hother.2 ⟨⟨m, n, hnot⟩, hlen⟩

end Layered

end Garbling
