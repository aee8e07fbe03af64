-- Documents that come back as they were written. Numbers, lists, optional
-- values and what is made of them do if their numbers are small enough.
-- Null is an absent value and nothing else, and every string is a name.
import Garbling.Json.Documents
import Garbling.Proofs.Json.Reading
import Garbling.Proofs.Outcomes

namespace Garbling

namespace Json

/-! ## Names -/

theorem not_isHighHalf {u : UInt16} (h : u.toNat < 0xd800 ∨ 0xdfff < u.toNat) :
    isHighHalf u = false ∧ isLowHalf u = false := by
  simp only [isHighHalf, isLowHalf, Bool.and_eq_false_iff, decide_eq_false_iff_not,
    UInt16.le_iff_toNat_le, UInt16.lt_iff_toNat_lt]
  have h1 : (0xd800 : UInt16).toNat = 0xd800 := rfl
  have h2 : (0xdc00 : UInt16).toNat = 0xdc00 := rfl
  have h3 : (0xe000 : UInt16).toNat = 0xe000 := rfl
  omega

theorem wellFormed_unitsOfChar (c : Char) (units : List UInt16) :
    wellFormed (unitsOfChar c ++ units) = wellFormed units := by
  have hc : c.toNat < 0xd800 ∨ 0xdfff < c.toNat ∧ c.toNat < 0x110000 := c.valid
  unfold unitsOfChar
  split
  · rename_i hsmall
    have hunit : (UInt16.ofNat c.toNat).toNat = c.toNat := by
      rw [UInt16.toNat_ofNat', Nat.mod_eq_of_lt hsmall]
    obtain ⟨hhigh, hlow⟩ := not_isHighHalf (u := UInt16.ofNat c.toNat) (by omega)
    cases units with
    | nil => simp [wellFormed, hhigh, hlow]
    | cons v units => simp [wellFormed, hhigh, hlow]
  · rename_i hlarge
    have hhigh : isHighHalf (UInt16.ofNat (0xd800 + (c.toNat - 0x10000) / 0x400)) = true := by
      simp only [isHighHalf, Bool.and_eq_true, decide_eq_true_eq, UInt16.le_iff_toNat_le,
        UInt16.lt_iff_toNat_lt, UInt16.toNat_ofNat']
      have h1 : (0xd800 : UInt16).toNat = 0xd800 := rfl
      have h2 : (0xdc00 : UInt16).toNat = 0xdc00 := rfl
      omega
    have hlow : isLowHalf (UInt16.ofNat (0xdc00 + (c.toNat - 0x10000) % 0x400)) = true := by
      simp only [isLowHalf, Bool.and_eq_true, decide_eq_true_eq, UInt16.le_iff_toNat_le,
        UInt16.lt_iff_toNat_lt, UInt16.toNat_ofNat']
      have h1 : (0xdc00 : UInt16).toNat = 0xdc00 := rfl
      have h2 : (0xe000 : UInt16).toNat = 0xe000 := rfl
      omega
    simp only [List.cons_append, List.nil_append, wellFormed, hhigh, if_true, hlow, Bool.true_and]

/-- Every string is a well formed name. -/
theorem wellFormed_unitsOf (s : String) : wellFormed (unitsOf s) = true := by
  unfold unitsOf
  induction s.toList with
  | nil => rfl
  | cons c cs ih => rw [List.flatMap_cons, wellFormed_unitsOfChar, ih]

namespace Document

variable {α β : Type}

/-! ## Documents that come back -/

/-- What is written can be printed, and values that fit are read back from it. -/
structure Faithful (d : Document α) (fits : α → Prop) : Prop where
  printable : ∀ a, (d.encode a).Printable
  decode : ∀ a, fits a → d.decode? (d.encode a) = some a

/-- The text of a value that fits is read as this value, and no other one has the same text. -/
structure Restored (d : Document α) (fits : α → Prop) : Prop where
  read : ∀ a, fits a → d.read? (d.write a) = some a
  distinct : ∀ a b, fits a → fits b → d.write a = d.write b → a = b

theorem read?_of_parse? {d : Document α} {text : String} {j : Json}
    (h : parse? text.toList = some j) : d.read? text = d.decode? j := by
  rw [read?, h]
  rfl

theorem Faithful.restored {d : Document α} {fits : α → Prop} (h : d.Faithful fits) :
    d.Restored fits := by
  have hread : ∀ a, fits a → d.read? (d.write a) = some a := by
    intro a ha
    have hparse : parse? (d.write a).toList = some (d.encode a) := by
      rw [write, String.toList_ofList, (h.printable a).parse?_print]
    rw [read?_of_parse? hparse, h.decode a ha]
  refine ⟨hread, fun a b ha hb hsame => ?_⟩
  have hboth := hread a ha
  rw [hsame, hread b hb] at hboth
  exact (Option.some.inj hboth).symm

theorem faithful_natural (bound : Nat) : (natural bound).Faithful (· < bound) :=
  ⟨fun n => .natural n, fun _ h => if_pos h⟩

/-- The number fits into 64 bits. -/
def IsWord (n : Nat) : Prop := n < 0x10000000000000000

theorem faithful_word : word.Faithful IsWord := faithful_natural _

theorem faithful_byte : byte.Faithful fun _ => True := by
  refine ⟨fun b => .natural b.toNat, fun b _ => ?_⟩
  have hb : (natural 256).decode? (.natural b.toNat) = some b.toNat :=
    (faithful_natural 256).decode b.toNat b.toNat_lt
  simp only [byte, hb, Option.map_some, UInt8.ofNat_toNat]

theorem faithful_list {d : Document α} {fits : α → Prop} (h : d.Faithful fits) :
    (list d).Faithful fun as => ∀ a ∈ as, fits a := by
  constructor
  · intro as
    refine .list fun item hitem => ?_
    obtain ⟨a, _, rfl⟩ := List.mem_map.1 hitem
    exact h.printable a
  · intro as has
    show (as.map d.encode).mapM d.decode? = some as
    induction as with
    | nil => rfl
    | cons a as ih =>
      rw [List.map_cons, List.mapM_cons, h.decode a (has a List.mem_cons_self),
        ih fun b hb => has b (List.mem_cons_of_mem _ hb)]
      rfl

/-- No value but an absent one is written as null. -/
theorem faithful_optional {d : Document α} {fits : α → Prop} (h : d.Faithful fits)
    (hnull : ∀ a, d.encode a ≠ .null) :
    (optional d).Faithful fun slot => ∀ a ∈ slot, fits a := by
  constructor
  · intro slot
    cases slot with
    | none => exact .null
    | some a => exact h.printable a
  · intro slot hslot
    cases slot with
    | none => rfl
    | some a =>
      have hdecode := h.decode a (hslot a rfl)
      show (optional d).decode? (d.encode a) = some (some a)
      cases hj : d.encode a with
      | null => exact absurd hj (hnull a)
      | _ =>
        rw [hj] at hdecode
        exact congrArg (Option.map some) hdecode

theorem faithful_through {d : Document α} {fits : α → Prop} {toPart : β → α}
    {ofPart : α → Option β} (h : d.Faithful fits) (hpart : ∀ b, ofPart (toPart b) = some b) :
    (d.through toPart ofPart).Faithful fun b => fits (toPart b) := by
  refine ⟨fun b => h.printable (toPart b), fun b hb => ?_⟩
  simp only [through, h.decode _ hb, Option.bind_some, hpart]

/-- What is always fit to be written need not be checked. -/
theorem Faithful.always {d : Document α} {fits : α → Prop} (h : d.Faithful fits)
    (hfits : ∀ a, fits a) : d.Faithful fun _ => True :=
  ⟨h.printable, fun a _ => h.decode a (hfits a)⟩

theorem faithful_bytes : bytes.Faithful fun _ => True :=
  (faithful_list faithful_byte).always fun _ _ _ => trivial

theorem faithful_block : block.Faithful fun _ => True := by
  refine faithful_through faithful_bytes fun b => ?_
  rw [Block.decode_toBytes]
  rfl

theorem faithful_tables : tables.Faithful fun _ => True := by
  have hslots := faithful_list (faithful_optional faithful_bytes fun _ => nofun)
  have hthrough : tables.Faithful fun t => ∀ slot ∈ t.slots, ∀ table ∈ slot, True :=
    faithful_through hslots fun _ => rfl
  exact hthrough.always fun _ _ _ _ _ => trivial

/-- A side without tables is not one with no slots. -/
theorem faithful_optional_tables : (optional tables).Faithful fun _ => True :=
  (faithful_optional faithful_tables fun _ => nofun).always fun _ _ _ => trivial

end Document

end Json

end Garbling
