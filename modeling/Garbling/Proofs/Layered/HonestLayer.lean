-- Honest layers. Garbling a layer writes one table for every wire, and
-- if the sentinels of each table differ then the layer leads each key of
-- the one side to the key for the same bit of the other side.
import Garbling.Proofs.IdentityTables
import Garbling.Proofs.Layered.Bridge

namespace Garbling

theorem Tables.get?_map_some (tables : List Bytes) (gate : Nat) :
    Tables.get? ⟨tables.map some⟩ gate = tables[gate]? := by
  rw [get?, List.getElem?_map]
  cases tables[gate]? <;> rfl

namespace Layer

variable {G : Type} [Generator G] {s : Scheme} {source target : Keys}

/-- One table for each position, whatever the order of its rows is. -/
theorem tablesAt_eq_ok {order order' : RowOrder G} {positions : List Nat} {tables : List Bytes}
    (h : tablesAt s source target order positions = (.ok tables, order')) :
    tables.length = positions.length ∧
      ∀ (i : Nat) position, positions[i]? = some position → ∃ table zeroSecond,
        tables[i]? = some table ∧ tableAt s source target position zeroSecond = .ok table := by
  induction positions generalizing order tables with
  | nil =>
    cases h
    refine ⟨rfl, ?_⟩
    intro i position hi
    cases hi
  | cons first rest ih =>
    unfold tablesAt at h
    split at h
    · cases h
    rename_i zeroSecond next _
    split at h
    · cases h
    rename_i table htable
    split at h
    · cases h
    rename_i tables' _ hrest
    cases h
    obtain ⟨hlen, htables⟩ := ih hrest
    refine ⟨by rw [List.length_cons, List.length_cons, hlen], ?_⟩
    intro i position hi
    cases i with
    | zero =>
      cases hi
      exact ⟨table, zeroSecond, rfl, htable⟩
    | succ i => exact htables i position hi

theorem tableAt_eq_ok {position : Nat} {zeroSecond : Bool} {table : Bytes}
    (h : tableAt s source target position zeroSecond = .ok table) : ∃ inputs outputs,
      source.pairAt? position = some inputs ∧ target.pairAt? position = some outputs ∧
        IdentityGate.table s (gateNumber position) zeroSecond inputs outputs = .ok table := by
  unfold tableAt at h
  obtain ⟨inputs, hinputs, h⟩ := bind_eq_ok.1 h
  obtain ⟨outputs, houtputs, h⟩ := bind_eq_ok.1 h
  exact ⟨inputs, outputs, inRange_eq_ok.1 hinputs, inRange_eq_ok.1 houtputs, h⟩

/-- Between two arrays of pairs, a layer has one honest table for each wire. -/
structure Honest (s : Scheme) (tables : Tables) (wires : Nat) (source target : Keys) : Prop where
  sourceLength : source.bytes.length = 2 * wires * source.size
  targetLength : target.bytes.length = 2 * wires * target.size
  size : tables.size = wires
  made : ∀ position < wires, ∃ table zeroSecond, tables.get? position = some table ∧
    tableAt s source target position zeroSecond = .ok table

theorem honest_of_garble {wires : Nat} {order order' : RowOrder G} {tables : Tables}
    (h : garble s wires source target order = (.ok tables, order')) :
    Honest s tables wires source target := by
  unfold garble at h
  dsimp only at h
  split at h
  · cases h
  rename_i hlengths
  obtain ⟨_, hs, ht⟩ := bind_eq_ok.1 hlengths
  rw [KeyArray.checkLength_eq_ok] at hs ht
  rcases hresult : tablesAt s source target order (List.range wires) with ⟨e | found, order''⟩
  · rw [hresult] at h
    cases h
  · rw [hresult] at h
    cases h
    obtain ⟨hlen, htables⟩ := tablesAt_eq_ok hresult
    refine ⟨hs, ht, ?_, ?_⟩
    · rw [Tables.size, List.length_map, hlen, List.length_range]
    · intro position hposition
      obtain ⟨table, zeroSecond, htable, hmade⟩ :=
        htables position position (List.getElem?_range hposition)
      exact ⟨table, zeroSecond, by rw [Tables.get?_map_some, htable], hmade⟩

omit [Generator G] in
/-- All slots of an honest layer hold a table of the one right length. -/
theorem Honest.tableSize {tables : Tables} {wires : Nat} (h : Honest s tables wires source target)
    {slot : Option Bytes} (hslot : slot ∈ tables.slots) :
    ∃ table, slot = some table ∧ table.length = IdentityGate.tableSize s := by
  obtain ⟨position, hposition, hget⟩ := List.mem_iff_getElem.1 hslot
  have hwire : position < wires := by
    rw [← h.size]
    exact hposition
  obtain ⟨table, zeroSecond, htable, hmade⟩ := h.made position hwire
  obtain ⟨_, _, _, _, hmade⟩ := tableAt_eq_ok hmade
  refine ⟨table, ?_, (IdentityGate.hasRow_of_table hmade).1⟩
  rw [Tables.get?, List.getElem?_eq_getElem hposition, hget] at htable
  exact htable

omit [Generator G] in
/-- Both keys open their rows at every gate of an honest layer. -/
theorem Honest.opensAt (law : s.Lawful) {tables : Tables} {wires : Nat}
    (h : Honest s tables wires source target)
    (hdiffer : ∀ position table, tables.get? position = some table →
      IdentityGate.SentinelsDiffer s table) {position : Nat} (hposition : position < wires) :
    OpensAt s tables source target position := by
  obtain ⟨table, zeroSecond, htable, hmade⟩ := h.made position hposition
  obtain ⟨inputs, outputs, hinputs, houtputs, hmade⟩ := tableAt_eq_ok hmade
  rw [Keys.pairAt?_eq_some h.sourceLength hposition, Option.some.injEq] at hinputs
  rw [Keys.pairAt?_eq_some h.targetLength hposition, Option.some.injEq] at houtputs
  subst hinputs houtputs
  obtain ⟨h0, h1⟩ := IdentityGate.opens_of_table law hmade (hdiffer position table htable)
  rw [KeyArray.length_keyFor h.targetLength hposition] at h0 h1
  refine ⟨table, zeroSecond, htable, (IdentityGate.hasRow_of_table hmade).1, ?_⟩
  intro bit
  cases bit with
  | false => rwa [Bool.xor_false]
  | true => rwa [Bool.xor_true]

end Layer

end Garbling
