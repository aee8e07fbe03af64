-- The garbled tables of a circuit, one slot per gate. A gate without a
-- table, such as a free one, has an empty slot, which is not the same as
-- a slot with an empty table.
import Garbling.Bytes

namespace Garbling

/-- The slots of all gates, in gate order. -/
structure Tables where
  slots : List (Option Bytes) := []
deriving DecidableEq, Repr, Inhabited

namespace Tables

/-- The number of slots. -/
def size (t : Tables) : Nat := t.slots.length

/-- There are no slots at all. -/
def isEmpty (t : Tables) : Bool := t.slots.isEmpty

/-- The table of a gate, if its slot holds one. -/
def get? (t : Tables) (gate : Nat) : Option Bytes := t.slots[gate]?.join

/-- The tables that are there, in gate order. -/
def present (t : Tables) : List Bytes := t.slots.filterMap id

theorem lt_size_of_get? {t : Tables} {gate : Nat} {table : Bytes}
    (h : t.get? gate = some table) : gate < t.size := by
  rw [get?, Option.join_eq_some_iff] at h
  exact (List.getElem?_eq_some_iff.1 h).1

theorem mem_present_iff {t : Tables} {table : Bytes} :
    table ∈ t.present ↔ ∃ gate, t.get? gate = some table := by
  rw [present, List.mem_filterMap]
  simp only [id_eq, exists_eq_right, get?, Option.join_eq_some_iff, List.mem_iff_getElem?]

/-- Changes the table of a gate, if its slot holds one. -/
def modify (t : Tables) (gate : Nat) (f : Bytes → Bytes) : Tables :=
  ⟨t.slots.modify gate (Option.map f)⟩

@[simp] theorem size_modify (t : Tables) (gate : Nat) (f : Bytes → Bytes) :
    (t.modify gate f).size = t.size := by
  simp [size, modify]

theorem get?_modify_self (t : Tables) (gate : Nat) (f : Bytes → Bytes) :
    (t.modify gate f).get? gate = (t.get? gate).map f := by
  unfold get? modify
  rcases h : t.slots[gate]? with _ | _ | table <;> simp [h]

theorem get?_modify_ne (t : Tables) {gate other : Nat} (f : Bytes → Bytes) (h : gate ≠ other) :
    (t.modify gate f).get? other = t.get? other := by
  unfold get? modify
  simp [h]

end Tables

/-- The tables of a circuit with identity gates: those of the inner circuit, and those of
the identity gates on the sides that have some. -/
structure LayeredTables where
  inner : Tables := {}
  input : Option Tables := none
  output : Option Tables := none
deriving DecidableEq, Repr, Inhabited

/-- What garbling reports: both keys of every input wire and of every output wire, and
one signal bit per output wire. -/
structure KeyMaterial where
  inputKeys : Bytes
  outputKeys : Bytes
  translation : Bytes
deriving DecidableEq, Repr

end Garbling
