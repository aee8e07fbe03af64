-- Damage to one garbled table: a byte is changed, the table is gone, or it
-- has another length. A changed byte is seen in the one piece that it lies
-- in, and all other pieces, and all other tables, are as they were.
import Garbling.Tables

namespace Garbling

/-! ## A changed byte -/

namespace Bytes

/-- The string with one byte masked. -/
def maskAt (bs : Bytes) (position : Nat) (mask : UInt8) : Bytes :=
  bs.modify position (· ^^^ mask)

@[simp] theorem length_maskAt (bs : Bytes) (position : Nat) (mask : UInt8) :
    (bs.maskAt position mask).length = bs.length :=
  List.length_modify ..

theorem getElem?_slice {bs : Bytes} {start length i : Nat} (hi : i < length) :
    ((bs.drop start).take length)[i]? = bs[start + i]? := by
  rw [List.getElem?_take, if_pos hi, List.getElem?_drop]

/-- A slice sees the masked byte if and only if it reaches over it. -/
theorem slice?_maskAt_eq_iff {bs : Bytes} {start length position : Nat} {mask : UInt8}
    (hmask : mask ≠ 0) (hslice : start + length ≤ bs.length) :
    slice? (bs.maskAt position mask) start length = slice? bs start length ↔
      ¬ (start ≤ position ∧ position < start + length) := by
  unfold slice?
  rw [length_maskAt, if_pos hslice, if_pos hslice, Option.some.injEq]
  constructor
  · rintro h ⟨hle, hlt⟩
    have hi : position - start < length := by omega
    have hbyte := congrArg (·[position - start]?) h
    simp only [getElem?_slice hi, show start + (position - start) = position by omega, maskAt,
      List.getElem?_modify_eq, List.getElem?_eq_getElem (show position < bs.length by omega),
      Option.map_eq_map, Option.map_some, Option.some.injEq] at hbyte
    apply hmask
    rw [← UInt8.xor_right_inj bs[position], hbyte, UInt8.xor_zero]
  · intro houtside
    apply List.ext_getElem?
    intro i
    by_cases hi : i < length
    · rw [getElem?_slice hi, getElem?_slice hi, maskAt, List.getElem?_modify]
      rcases h : bs[start + i]? with _ | b
      · rfl
      · simp [show position ≠ start + i by omega]
    · rw [List.getElem?_take, List.getElem?_take, if_neg hi, if_neg hi]

/-- Of the pieces of one size, only the one with the masked byte is another one. -/
theorem piece_maskAt_eq_iff {bs : Bytes} {size i position : Nat} {mask : UInt8}
    (hmask : mask ≠ 0) (hsize : 0 < size) (hpiece : i * size + size ≤ bs.length) :
    slice? (bs.maskAt position mask) (i * size) size = slice? bs (i * size) size ↔
      position / size ≠ i := by
  rw [slice?_maskAt_eq_iff hmask hpiece, ne_eq, Nat.div_eq_iff hsize]
  omega

end Bytes

/-! ## Damaged tables -/

/-- What can happen to a table. -/
inductive Damage where
  /-- One byte is masked. -/
  | mask (position : Nat) (mask : UInt8)
  /-- The table is gone. -/
  | drop
  /-- There is another table in its place. -/
  | replace (table : Bytes)

namespace Damage

/-- What is left of a table. -/
def result : Damage → Bytes → Option Bytes
  | mask position byte, table => some (table.maskAt position byte)
  | drop, _ => none
  | replace table', _ => some table'

/-- The damage can be seen: a byte that is there is changed, the table is gone, or it has
another length. -/
def Shows : Damage → Bytes → Prop
  | mask position byte, table => position < table.length ∧ byte ≠ 0
  | drop, _ => True
  | replace table', table => table'.length ≠ table.length

/-- The changed byte lies in the payload of a row, the first of its two ciphertexts of some
size. -/
def InPayload (size : Nat) : Damage → Prop
  | mask position _ => position % (2 * size) < size
  | drop | replace _ => False

end Damage

/-- The tables after damage to the one of a gate. -/
def Tables.damage (t : Tables) (gate : Nat) (d : Damage) : Tables :=
  ⟨t.slots.modify gate (·.bind d.result)⟩

@[simp] theorem Tables.size_damage (t : Tables) (gate : Nat) (d : Damage) :
    (t.damage gate d).size = t.size := by
  simp [size, damage]

theorem Tables.get?_damage_self {t : Tables} {gate : Nat} {d : Damage} {table : Bytes}
    (h : t.get? gate = some table) : (t.damage gate d).get? gate = d.result table := by
  rw [get?, Option.join_eq_some_iff] at h
  simp [get?, damage, h]

theorem Tables.get?_damage_ne {t : Tables} {gate other : Nat} {d : Damage} (h : gate ≠ other) :
    (t.damage gate d).get? other = t.get? other := by
  unfold get? damage
  simp [h]

/-- The three kinds of tables. -/
inductive TablePlace where
  | inner
  | input
  | output
deriving DecidableEq

namespace LayeredTables

/-- The table of a gate. -/
def get? (t : LayeredTables) (place : TablePlace) (gate : Nat) : Option Bytes :=
  match place with
  | .inner => t.inner.get? gate
  | .input => t.input.bind (·.get? gate)
  | .output => t.output.bind (·.get? gate)

/-- All tables after damage to one of them. -/
def damage (t : LayeredTables) (place : TablePlace) (gate : Nat) (d : Damage) : LayeredTables :=
  match place with
  | .inner => { t with inner := t.inner.damage gate d }
  | .input => { t with input := t.input.map (·.damage gate d) }
  | .output => { t with output := t.output.map (·.damage gate d) }

end LayeredTables

end Garbling
