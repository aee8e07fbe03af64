-- The binary formats lose nothing: reading gives back what was written,
-- and leaves what follows it. Numbers have to fit into their bytes, and so
-- have the lengths of lists.
import Garbling.Binary.Documents
import Garbling.Proofs.Outcomes

namespace Garbling

namespace Format

variable {α β : Type}

/-- Reading gives back the values that fit, and the bytes after them. -/
def Lossless (f : Format α) (fits : α → Prop) : Prop :=
  ∀ a rest, fits a → f.read (f.write a ++ rest) = .ok (a, rest)

/-- A number of things that fits into a word. -/
def Countable (n : Nat) : Prop := n < 0x10000000000000000

theorem Lossless.decode {f : Format α} {fits : α → Prop} (h : f.Lossless fits) {a : α}
    (ha : fits a) : f.decode (f.write a) = .ok a := by
  have hread := h a [] ha
  rw [List.append_nil] at hread
  rw [Format.decode, hread]
  rfl

/-! ## Formats -/

theorem lossless_byte : byte.Lossless fun _ => True := by
  intro b rest _
  rfl

theorem lossless_natural (size : Nat) : (natural size).Lossless (· < Nat.pow 256 size) := by
  intro n rest h
  have hlen : (leBytes size n).length = size := length_leBytes size n
  have hle : size ≤ (leBytes size n ++ rest).length := by
    rw [List.length_append, hlen]
    omega
  simp only [natural, hle, if_true, List.take_left' hlen, List.drop_left' hlen, ofLeBytes_leBytes]
  rw [Nat.mod_eq_of_lt h]

theorem lossless_word : word.Lossless Countable := lossless_natural 8

theorem lossless_optional {f : Format α} {fits : α → Prop} (h : f.Lossless fits) :
    (optional f).Lossless fun slot => ∀ a, slot = some a → fits a := by
  intro slot rest hslot
  cases slot with
  | none => rfl
  | some a =>
    have hread := h a rest (hslot a rfl)
    simp only [optional, List.cons_append, hread, Except.map]
    rfl

theorem readMany_flatMap {f : Format α} {fits : α → Prop} (h : f.Lossless fits) {as : List α}
    (has : ∀ a ∈ as, fits a) (rest : Bytes) :
    f.readMany as.length (as.flatMap f.write ++ rest) = .ok (as, rest) := by
  induction as with
  | nil => rfl
  | cons a as ih =>
    have hrest := ih fun b hb => has b (List.mem_cons_of_mem _ hb)
    rw [List.length_cons, List.flatMap_cons, List.append_assoc, readMany,
      h a _ (has a List.mem_cons_self), ok_bind]
    simp only [hrest, ok_bind]
    rfl

theorem lossless_list {f : Format α} {fits : α → Prop} (h : f.Lossless fits) :
    (list f).Lossless fun as => Countable as.length ∧ ∀ a ∈ as, fits a := by
  intro as rest ⟨hlen, has⟩
  have hword := lossless_word as.length (as.flatMap f.write ++ rest) hlen
  simp only [list, List.append_assoc, hword, ok_bind]
  exact readMany_flatMap h has rest

theorem lossless_pair {f : Format α} {g : Format β} {fits : α → Prop} {fits' : β → Prop}
    (hf : f.Lossless fits) (hg : g.Lossless fits') :
    (pair f g).Lossless fun p => fits p.1 ∧ fits' p.2 := by
  intro ⟨a, b⟩ rest ⟨ha, hb⟩
  simp only [pair, List.append_assoc, hf a _ ha, ok_bind, hg b rest hb]
  rfl

/-- The same bytes for another type, whose values are their parts. -/
theorem lossless_through {f : Format α} {fits : α → Prop} {toPart : β → α} {ofPart : α → β}
    (h : f.Lossless fits) (hpart : ∀ b, ofPart (toPart b) = b) :
    (through f toPart ofPart).Lossless fun b => fits (toPart b) := by
  intro b rest hb
  simp only [through, h (toPart b) rest hb, Except.map, hpart]

theorem lossless_bytes : bytes.Lossless fun bs => Countable bs.length := by
  intro bs rest h
  exact lossless_list lossless_byte bs rest ⟨h, fun _ _ => trivial⟩

end Format

/-! ## Tables -/

/-- There are no more slots than a word can count, and no table is longer than that. -/
def Tables.Countable (t : Tables) : Prop :=
  Format.Countable t.slots.length ∧
    ∀ slot ∈ t.slots, ∀ table, slot = some table → Format.Countable table.length

structure LayeredTables.Countable (t : LayeredTables) : Prop where
  inner : t.inner.Countable
  input : ∀ tables, t.input = some tables → tables.Countable
  output : ∀ tables, t.output = some tables → tables.Countable

namespace Format

theorem lossless_tables : Format.tables.Lossless Tables.Countable := by
  intro t rest h
  have hslots := lossless_list (lossless_optional lossless_bytes)
  have hthrough : Format.tables.Lossless fun t => Countable t.slots.length ∧
      ∀ slot ∈ t.slots, ∀ table, slot = some table → Countable table.length :=
    lossless_through hslots fun _ => rfl
  exact hthrough t rest h

theorem lossless_layeredTables : Format.layeredTables.Lossless LayeredTables.Countable := by
  intro t rest h
  have hside := lossless_optional lossless_tables
  have hsides := lossless_pair hside hside
  refine lossless_through (lossless_pair lossless_tables hsides) (fun _ => rfl) t rest ?_
  exact ⟨h.inner, h.input, h.output⟩

end Format

end Garbling
