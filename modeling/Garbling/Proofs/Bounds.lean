-- No read past an end. Whatever data a circuit is given, each read of a
-- key or of a row comes after a check of the length that it relies on, and
-- the wires that gates and outputs read were checked with the circuit.
import Garbling.Proofs.EvaluationErrors
import Garbling.Proofs.Parties
import Garbling.Session

namespace Garbling

variable {α ε : Type}

/-- The refusal stands for a read past an end, by the audit itself or by what it reads with. -/
def Rejection.PastEnd (r : Rejection) : Prop := r = .outOfRange ∨ r = .unreadable .outOfRange

theorem Rejection.PastEnd.ne {r r' : Rejection} (hr : r.PastEnd)
    (h : ¬ (r' = .outOfRange ∨ r' = .unreadable .outOfRange)) : r' ≠ r := by
  rintro rfl
  exact h hr

/-! ## Key arrays -/

namespace KeyArray

theorem inBounds_checkLength (keys : Bytes) (expected : Nat) :
    Avoids .outOfRange (checkLength keys expected) := by
  unfold checkLength
  split
  · exact avoids_ok _ _
  · exact avoids_throw (by simp)

/-- Every position is that of a wire, and the array has the keys of all wires. -/
theorem inBounds_select {size wires : Nat} {bits pairs : Bytes} {positions : List Nat}
    (h : ∀ wire ∈ positions, wire < wires) :
    Avoids .outOfRange (select size wires bits pairs positions) := by
  refine Avoids.guard (by simp) ((inBounds_checkLength _ _).bind_of_ok fun _ hlen => ?_)
  rw [checkLength_eq_ok] at hlen
  refine Avoids.bind (Avoids.mapM_of_mem fun ⟨bit, wire⟩ hmem => ?_) fun keys => avoids_ok _ _
  have hwire := h wire (List.of_mem_zip hmem).2
  exact avoids_of_eq_ok (inRange_eq_ok.2 (bitKeyAt?_eq_some hlen hwire))

theorem inBounds_checkAllRecorded (size count : Nat) (keys pairs : Bytes) :
    Avoids .outOfRange (checkAllRecorded size count keys pairs) := by
  refine (inBounds_checkLength _ _).bind_of_ok fun _ hkeys => ?_
  refine (inBounds_checkLength _ _).bind_of_ok fun _ hpairs => ?_
  rw [checkLength_eq_ok] at hkeys hpairs
  refine Avoids.forM_of_mem fun wire hmem => ?_
  have hwire := List.mem_range.1 hmem
  unfold checkRecorded
  rw [keyAt?_eq_some hkeys hwire, bitKeyAt?_eq_some hpairs hwire, bitKeyAt?_eq_some hpairs hwire]
  simp only [inRange, ok_bind]
  split
  · exact avoids_ok _ _
  · exact avoids_throw (by simp)

end KeyArray

/-! ## Tables of gates -/

namespace GateTable

theorem inBounds_audit {r : Rejection} (hr : r.PastEnd) (hash : PairHash) (gate : Nat)
    (op : Bool → Bool → Bool) (offset : Block) (table : Bytes) (a b : Block) :
    Avoids r (audit hash gate op offset table a b) := by
  refine Avoids.guard_of_not (hr.ne (by simp)) fun hlen => ?_
  have hopen := open?_eq_some (Decidable.not_not.1 hlen) hash gate
  have hrange : ∀ a b, Avoids r (auditRange (open? hash gate table a b)) := by
    intro a b
    obtain ⟨label, hlabel⟩ := hopen a b
    exact avoids_of_eq_ok (auditRange_eq_ok.2 hlabel)
  refine (hrange a b).bind fun zero => ?_
  refine Avoids.bind (Avoids.forM_of_mem fun ⟨x, y⟩ _ => ?_) fun _ => avoids_ok _ _
  refine (hrange _ _).bind fun label => ?_
  exact Avoids.guard (hr.ne (by simp)) (avoids_ok _ _)

end GateTable

/-! ## Circuits with free Xor -/

namespace FreeXor

variable {G : Type}

theorem inBounds_compute (c : FreeXor G) (keys : Bytes) : Avoids .outOfRange (c.compute keys) :=
  avoids_compute Error.not_onTheWay_outOfRange (by simp) (by simp)

theorem inBounds_translate (c : FreeXor G) (output : Bytes) :
    Avoids .outOfRange (c.translate output) :=
  (KeyArray.inBounds_checkLength _ _).bind fun _ => Avoids.guard (by simp) (avoids_ok _ _)

theorem inBounds_verifiedTranslate (c : FreeXor G) (output pairs : Bytes) :
    Avoids .outOfRange (c.verifiedTranslate output pairs) :=
  (KeyArray.inBounds_checkAllRecorded _ _ _ _).bind fun _ => c.inBounds_translate output

theorem inBounds_partyWires (c : FreeXor G) (party : Nat) :
    Avoids .outOfRange (c.partyWires party) := by
  unfold partyWires
  split
  · exact avoids_throw (by simp)
  · split
    · exact avoids_ok _ _
    · exact avoids_throw (by simp)

theorem inBounds_garbledInput (c : FreeXor G) (bits pairs : Bytes) (party : Nat) :
    Avoids .outOfRange (c.garbledInput bits pairs party) :=
  (c.inBounds_partyWires party).bind_of_ok fun _ hwires =>
    KeyArray.inBounds_select (lt_of_mem_partyWires hwires)

theorem inBounds_garbleSeeded [Generator G] (c : FreeXor G) (seed : Bytes) :
    Avoids .outOfRange (c.garbleSeeded seed).1 := by
  unfold garbleSeeded
  split
  · exact avoids_throw (by simp)
  split
  · exact avoids_throw (by simp)
  · rename_i key generator _
    obtain ⟨keys, c', h⟩ := exists_garble { c with generator } (Block.ofBytes key)
    rw [h]
    exact avoids_ok _ _

theorem inBounds_setTables (c : FreeXor G) (tables : Tables) :
    Avoids .outOfRange (c.setTables tables) := by
  unfold setTables
  split
  · exact avoids_ok _ _
  · exact avoids_throw (by simp)

/-! ## Their audit -/

theorem length_pairUp (l : List α) : (pairUp l).length = l.length / 2 := by
  fun_induction pairUp l with
  | case1 a b rest ih =>
    simp only [List.length_cons, ih]
    omega
  | case2 l hshort =>
    cases l with
    | nil => simp
    | cons a l =>
      cases l with
      | nil => simp
      | cons b l => exact absurd rfl (hshort a b l)

theorem inBounds_auditGate (c : FreeXor G) {r : Rejection} (hr : r.PastEnd) (offset : Block)
    (number : Nat) (gate : Gate Block) : Avoids r (c.auditGate offset number gate) := by
  have htable : ∀ op a b, Avoids r (c.auditTable offset number op a b) := by
    intro op a b
    unfold auditTable
    split
    · exact avoids_throw (hr.ne (by simp))
    · exact GateTable.inBounds_audit hr _ _ _ _ _ _ _
  cases gate with
  | xor x y | not x => exact avoids_ok _ _
  | and a b | or a b => exact htable _ a b

theorem inBounds_audit (c : FreeXor G) {r : Rejection} (hr : r.PastEnd) (pairs : Bytes) :
    Avoids r (c.audit pairs) := by
  refine Avoids.guard_of_not (hr.ne (by simp)) fun hlen => Avoids.guard (hr.ne (by simp)) ?_
  have hoffset : Avoids r (offsetOf (pairUp (Block.many pairs))) := by
    unfold offsetOf
    split
    · exact avoids_throw (hr.ne (by simp))
    · split
      · exact avoids_ok _ _
      · exact avoids_throw (hr.ne (by simp))
  refine hoffset.bind fun offset => ?_
  have hzero : ∀ pair, Avoids r (zeroOfPair offset pair) := by
    intro pair
    unfold zeroOfPair
    split
    · exact avoids_ok _ _
    · exact avoids_throw (hr.ne (by simp))
  refine (Avoids.mapM hzero _).bind_of_ok fun zeros hzeros => ?_
  have hin : zeros.length = c.circuit.inputCount := by
    have hpairs := congrArg List.length (mapM_eq_ok.1 hzeros)
    rw [List.length_map, List.length_map, length_pairUp,
      Block.length_many (Decidable.not_not.1 hlen)] at hpairs
    rw [← hpairs, inputCount]
    omega
  refine (c.valid.avoids_propagate (c.inBounds_auditGate hr offset) hin).bind_of_ok
    fun labels hlabels => ?_
  obtain ⟨outputs, houtputs⟩ := c.valid.exists_readOutputs? hin hlabels
  exact (avoids_of_eq_ok (auditRange_eq_ok.2 houtputs)).bind fun outputs => avoids_ok _ _

/-! ## Their sessions -/

/-- No request to a circuit with free Xor reads past an end. -/
theorem inBounds_respond [Generator G] (c : FreeXor G) (request : Request Bytes Tables) :
    Avoids .outOfRange (c.respond request).1 := by
  cases request with
  | garble key rows =>
    obtain ⟨keys, c', h⟩ := exists_garble c key
    simp only [respond, h]
    exact avoids_ok _ _
  | garbleSeeded seed => exact (c.inBounds_garbleSeeded seed).map _
  | garbledInput bits pairs party => exact (c.inBounds_garbledInput bits pairs party).map _
  | compute keys => exact (c.inBounds_compute keys).map _
  | translate output => exact (c.inBounds_translate output).map _
  | verifiedTranslate output pairs => exact (c.inBounds_verifiedTranslate output pairs).map _
  | setTables tables =>
    have h := c.inBounds_setTables tables
    simp only [respond]
    cases hset : c.setTables tables with
    | error e => exact h.rethrow hset
    | ok c' => exact avoids_ok _ _
  | partyWires party => exact (c.inBounds_partyWires party).map _
  | partySize party => exact (c.inBounds_partyWires party).map _
  | _ => exact avoids_ok _ _

end FreeXor

end Garbling
