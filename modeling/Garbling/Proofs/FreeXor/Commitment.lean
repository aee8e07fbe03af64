-- What the committed bytes say about the tables. The tables and the
-- translation table follow each other without lengths, slots may be empty,
-- and a free gate may have a table that nothing reads. Still, an evaluation
-- and a translation that succeed check enough lengths to fix all the rest.
import Garbling.Proofs.FreeXor.Correctness

namespace Garbling

/-! ## Slots in a row -/

namespace Tables

theorem present_cons_none (slots : List (Option Bytes)) :
    (⟨none :: slots⟩ : Tables).present = (⟨slots⟩ : Tables).present := rfl

theorem present_cons_some (table : Bytes) (slots : List (Option Bytes)) :
    (⟨some table :: slots⟩ : Tables).present = table :: (⟨slots⟩ : Tables).present := rfl

/-- Each gate that needs a table has one of the right length. -/
def Serve (t : Tables) (gates : List (Gate Nat)) : Prop :=
  ∀ (g : Nat) gate, gates[g]? = some gate → gate.needsTable = true →
    ∃ table, t.get? g = some table ∧ table.length = GateTable.size

/-- No gate has a table that it does not need. -/
def Spare (t : Tables) (gates : List (Gate Nat)) : Prop :=
  ∀ (g : Nat) gate, gates[g]? = some gate → gate.needsTable = false → t.get? g = none

section

variable {gate : Gate Nat} {gates : List (Gate Nat)} {slot : Option Bytes}
  {slots : List (Option Bytes)}

theorem Serve.tail (h : (⟨slot :: slots⟩ : Tables).Serve (gate :: gates)) :
    (⟨slots⟩ : Tables).Serve gates := fun g gate' hg => h (g + 1) gate' hg

theorem Serve.head (h : (⟨slot :: slots⟩ : Tables).Serve (gate :: gates))
    (hneeds : gate.needsTable = true) :
    ∃ table, slot = some table ∧ table.length = GateTable.size := h 0 gate rfl hneeds

theorem Spare.tail (h : (⟨slot :: slots⟩ : Tables).Spare (gate :: gates)) :
    (⟨slots⟩ : Tables).Spare gates := fun g gate' hg => h (g + 1) gate' hg

theorem Spare.head (h : (⟨slot :: slots⟩ : Tables).Spare (gate :: gates))
    (hneeds : gate.needsTable = false) : slot = none := h 0 gate rfl hneeds

end

/-- Tables without spare ones are the shortest that serve the gates. -/
theorem length_flatten_le {gates : List (Gate Nat)} {slots slots' : List (Option Bytes)}
    (hlen : slots.length = gates.length) (hlen' : slots'.length = gates.length)
    (hspare : (⟨slots⟩ : Tables).Spare gates) (hserve : (⟨slots⟩ : Tables).Serve gates)
    (hserve' : (⟨slots'⟩ : Tables).Serve gates) :
    (⟨slots⟩ : Tables).present.flatten.length ≤ (⟨slots'⟩ : Tables).present.flatten.length := by
  induction gates generalizing slots slots' with
  | nil =>
    rw [List.length_eq_zero_iff.1 hlen]
    exact Nat.zero_le _
  | cons gate gates ih =>
    obtain ⟨slot, slots, rfl⟩ := List.exists_cons_of_length_eq_add_one hlen
    obtain ⟨slot', slots', rfl⟩ := List.exists_cons_of_length_eq_add_one hlen'
    have hle := ih (Nat.succ.inj hlen) (Nat.succ.inj hlen') hspare.tail hserve.tail hserve'.tail
    cases hneeds : gate.needsTable with
    | true =>
      obtain ⟨table, rfl, hsize⟩ := hserve.head hneeds
      obtain ⟨table', rfl, hsize'⟩ := hserve'.head hneeds
      simp only [present_cons_some, List.flatten_cons, List.length_append, hsize, hsize']
      omega
    | false =>
      rw [hspare.head hneeds, present_cons_none]
      cases slot' with
      | none => exact hle
      | some table =>
        simp only [present_cons_some, List.flatten_cons, List.length_append]
        omega

/-- Two rows of tables for the same gates, with something of one length behind each. If the bytes
are the same, then what is behind is, and so is the table of each gate that needs one. The
induction is on the gates. A spare table must be empty, because all that comes after it is at
least as long as in the row without it. -/
theorem eq_of_flatten_append_eq {gates : List (Gate Nat)} {slots slots' : List (Option Bytes)}
    {rest rest' : Bytes} (hlen : slots.length = gates.length) (hlen' : slots'.length = gates.length)
    (hspare : (⟨slots⟩ : Tables).Spare gates) (hserve : (⟨slots⟩ : Tables).Serve gates)
    (hserve' : (⟨slots'⟩ : Tables).Serve gates) (hrest : rest'.length = rest.length)
    (h : (⟨slots'⟩ : Tables).present.flatten ++ rest' =
      (⟨slots⟩ : Tables).present.flatten ++ rest) :
    rest' = rest ∧ ∀ (g : Nat) gate, gates[g]? = some gate → gate.needsTable = true →
      (⟨slots'⟩ : Tables).get? g = (⟨slots⟩ : Tables).get? g := by
  induction gates generalizing slots slots' with
  | nil =>
    rw [List.length_eq_zero_iff.1 hlen, List.length_eq_zero_iff.1 hlen'] at h
    refine ⟨h, ?_⟩
    intro g gate hg
    cases hg
  | cons gate gates ih =>
    obtain ⟨slot, slots, rfl⟩ := List.exists_cons_of_length_eq_add_one hlen
    obtain ⟨slot', slots', rfl⟩ := List.exists_cons_of_length_eq_add_one hlen'
    have hcount := Nat.succ.inj hlen
    have hcount' := Nat.succ.inj hlen'
    have hothers := ih hcount hcount' hspare.tail hserve.tail hserve'.tail
    cases hneeds : gate.needsTable with
    | true =>
      obtain ⟨table, rfl, hsize⟩ := hserve.head hneeds
      obtain ⟨table', rfl, hsize'⟩ := hserve'.head hneeds
      simp only [present_cons_some, List.flatten_cons, List.append_assoc] at h
      obtain ⟨rfl, htail⟩ := List.append_inj h (hsize'.trans hsize.symm)
      obtain ⟨hrest, hsame⟩ := hothers htail
      refine ⟨hrest, ?_⟩
      intro g gate' hg hneeds'
      cases g with
      | zero => rfl
      | succ g => exact hsame g gate' hg hneeds'
    | false =>
      have htail : (⟨slots'⟩ : Tables).present.flatten ++ rest' =
          (⟨slots⟩ : Tables).present.flatten ++ rest := by
        rw [hspare.head hneeds, present_cons_none] at h
        cases slot' with
        | none => exact h
        | some table =>
          have hle := length_flatten_le hcount hcount' hspare.tail hserve.tail hserve'.tail
          rw [present_cons_some, List.flatten_cons, List.append_assoc] at h
          have hempty : table.length = 0 := by
            have := congrArg List.length h
            simp only [List.length_append] at this
            omega
          rwa [List.length_eq_zero_iff.1 hempty] at h
      obtain ⟨hrest, hsame⟩ := hothers htail
      refine ⟨hrest, ?_⟩
      intro g gate' hg hneeds'
      cases g with
      | zero =>
        cases hg
        rw [hneeds] at hneeds'
        cases hneeds'
      | succ g => exact hsame g gate' hg hneeds'

end Tables

namespace FreeXor

variable {G G' : Type}

/-! ## Successful runs -/

/-- An evaluation that succeeds is made of labels that agree with all gates. -/
theorem compute_eq_ok {c : FreeXor G} {keys output : Bytes} : c.compute keys = .ok output ↔
    c.garbled = true ∧ keys.length = c.inputCount * keySize ∧ ∃ label,
      c.circuit.Consistent c.labelOf label ∧
      Block.many keys = (List.range c.inputCount).map label ∧
      output = (c.circuit.outputs.map label).flatMap Block.toBytes := by
  unfold compute
  constructor
  · intro h
    obtain ⟨hg, h⟩ := guard_eq_ok.1 h
    obtain ⟨hlen, h⟩ := guard_eq_ok.1 h
    obtain ⟨labels, hlabels, h⟩ := bind_eq_ok.1 h
    obtain ⟨outputs, houtputs, h⟩ := bind_eq_ok.1 h
    rw [pure_eq_ok] at h
    obtain ⟨label, hconsistent, hinputs, rfl⟩ :=
      Circuit.consistent_of_propagate (Block.length_many (Decidable.not_not.1 hlen)) hlabels
    rw [Circuit.readOutputs?_valuesBelow c.valid, inRange_eq_ok, Option.some.injEq] at houtputs
    subst houtputs
    exact ⟨by simpa using hg, Decidable.not_not.1 hlen, label, hconsistent, hinputs, h.symm⟩
  · rintro ⟨hg, hlen, label, hconsistent, hinputs, rfl⟩
    rw [if_neg (by simp [hg]), if_neg (by simp [hlen]), hinputs]
    simp only [inputCount, Circuit.propagate_of_consistent c.valid hconsistent, ok_bind,
      Circuit.readOutputs?_valuesBelow c.valid]
    rfl

theorem of_openTable {c : FreeXor G} {g : Nat} {a b label : Block}
    (h : c.openTable g a b = .ok label) :
    ∃ table, c.tables.get? g = some table ∧ table.length = GateTable.size := by
  unfold openTable at h
  split at h
  · cases h
  · rename_i table htable
    split at h
    · rename_i hsize
      exact ⟨table, htable, hsize⟩
    · cases h

/-- An evaluation that succeeds has found a table for each gate that needs one. -/
theorem serve_of_compute {c : FreeXor G} {keys output : Bytes} (h : c.compute keys = .ok output) :
    c.tables.Serve c.circuit.gates := by
  obtain ⟨_, _, label, hconsistent, _⟩ := compute_eq_ok.1 h
  intro g gate hg hneeds
  have hlabel := hconsistent g gate hg
  cases gate with
  | xor _ _ | not _ => cases hneeds
  | and _ _ | or _ _ => exact of_openTable hlabel

theorem length_of_translate {c : FreeXor G} {output bits : Bytes}
    (h : c.translate output = .ok bits) : c.translation.length = c.outputCount := by
  obtain ⟨_, _, h⟩ := bind_eq_ok.1 h
  exact Decidable.not_not.1 (guard_eq_ok.1 h).1

/-! ## What the bytes bind -/

theorem Honest.serve {c : FreeXor G} {keys : KeyMaterial} {offset : Block} {zero : Nat → Block}
    (h : c.Honest keys offset zero) : c.tables.Serve c.circuit.gates := by
  intro g gate hg hneeds
  have haudit := h.audits g gate hg
  cases gate with
  | xor _ _ | not _ => cases hneeds
  | and _ _ | or _ _ =>
    obtain ⟨table, htable, haudit⟩ := of_auditTable haudit
    exact ⟨table, htable, (GateTable.of_audit haudit).1⟩

/-- Evaluation only reads the tables of the gates that need one. -/
theorem compute_of_needed {c : FreeXor G} {e : FreeXor G'} (hcircuit : e.circuit = c.circuit)
    (hhash : e.hash = c.hash) (hg : c.garbled = true)
    (htables : ∀ (g : Nat) gate, c.circuit.gates[g]? = some gate → gate.needsTable = true →
      e.tables.get? g = c.tables.get? g)
    {keys output : Bytes} (h : e.compute keys = .ok output) : c.compute keys = .ok output := by
  obtain ⟨_, hlen, label, hconsistent, hinputs, houtput⟩ := compute_eq_ok.1 h
  rw [inputCount_congr hcircuit] at hlen hinputs
  rw [hcircuit] at hconsistent houtput
  refine compute_eq_ok.2 ⟨hg, hlen, label, ?_, hinputs, houtput⟩
  intro g gate hgate
  have hlabel := hconsistent g gate hgate
  cases gate with
  | xor _ _ | not _ => exact hlabel
  | and _ _ | or _ _ =>
    have htable := htables g _ hgate rfl
    simp only [Gate.map, labelOf, openTable, htable, hhash] at hlabel ⊢
    exact hlabel

/-- An honest garbling, and any tables and translation table over the same circuit. If both
commit to the same bytes, whatever the others evaluate and translate successfully, the honest
garbling does, with the same results. -/
theorem Honest.binds {c : FreeXor G} {e : FreeXor G'} {keys : KeyMaterial} {offset : Block}
    {zero : Nat → Block} (h : c.Honest keys offset zero) (hcircuit : e.circuit = c.circuit)
    (hhash : e.hash = c.hash) (hslots : e.tables.size = c.circuit.gates.length)
    (hbytes : e.tables.present.flatten ++ e.translation =
      c.tables.present.flatten ++ c.translation)
    {input output bits : Bytes} (hcompute : e.compute input = .ok output)
    (htranslate : e.translate output = .ok bits) :
    c.compute input = .ok output ∧ c.translate output = .ok bits := by
  have hserve := serve_of_compute hcompute
  rw [hcircuit] at hserve
  have hlen : e.translation.length = c.translation.length := by
    rw [length_of_translate htranslate, h.translates, List.length_map, outputCount_congr hcircuit]
    rfl
  obtain ⟨htranslation, htables⟩ :=
    Tables.eq_of_flatten_append_eq h.slots hslots h.free h.serve hserve hlen hbytes
  refine ⟨compute_of_needed hcircuit hhash h.garbled htables hcompute, ?_⟩
  unfold translate at htranslate ⊢
  rw [← htranslation, ← outputCount_congr hcircuit]
  exact htranslate

end FreeXor

end Garbling
