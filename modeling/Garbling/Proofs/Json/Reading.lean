-- What is printed is read back. No value reads on past its own text: in a
-- list or an object, a comma or a closing bracket follows. The fuel of the
-- reader is enough, since every part of a value that takes a unit of it
-- has at least one character.
import Garbling.Proofs.Json.Tokens

namespace Garbling.Json

/-! ## Values that are spelled as they are read -/

/-- A value whose numerals are spelled as the reader keeps them. -/
inductive Printable : Json → Prop where
  | null : Printable null
  | bool (b : Bool) : Printable (bool b)
  | natural (n : Nat) : Printable (natural n)
  | numeral {spelling : List Char} (h : readNumber spelling = some (numeral spelling, [])) :
    Printable (numeral spelling)
  | text (units : List UInt16) : Printable (text units)
  | list {items : List Json} (h : ∀ item ∈ items, Printable item) : Printable (list items)
  | object {fields : List (List UInt16 × Json)} (h : ∀ field ∈ fields, Printable field.2) :
    Printable (object fields)

theorem skipBlanks_cons {c : Char} (h : isBlank c = false) (cs : List Char) :
    skipBlanks (c :: cs) = c :: cs := by
  simp [skipBlanks, h]

/-- A number starts with a digit or a sign. -/
theorem head_of_readNumber {c : Char} {cs : List Char} {read : Json × List Char}
    (h : readNumber (c :: cs) = some read) : c = '-' ∨ c.isDigit = true := by
  by_cases hc : c = '-'
  · exact .inl hc
  · refine .inr ?_
    rw [readNumber_of_ne (by simpa using hc)] at h
    cases hdigit : c.isDigit with
    | true => rfl
    | false => simp [readUnsigned, readWhole, readDigits, hdigit] at h

section

variable {c : Char} (hc : c = '-' ∨ c.isDigit = true)
include hc

theorem ne_of_numberHead {d : Char} (hminus : d ≠ '-') (hdigit : d.isDigit = false) : c ≠ d := by
  rintro rfl
  rcases hc with hc | hc
  · exact hminus hc
  · rw [hdigit] at hc
    cases hc

theorem isBlank_numberHead : isBlank c = false := by
  have hne : ∀ d, d ≠ '-' → d.isDigit = false → (c == d) = false := fun d hminus hdigit =>
    beq_eq_false_iff_ne.2 (ne_of_numberHead hc hminus hdigit)
  simp only [isBlank, hne _ (by decide : ' ' ≠ '-') rfl, hne _ (by decide : '\n' ≠ '-') rfl,
    hne _ (by decide : '\t' ≠ '-') rfl, hne _ (by decide : '\r' ≠ '-') rfl, Bool.or_false]

/-- No other value starts with a digit or a sign. -/
theorem readValue_number (fuel : Nat) (cs : List Char) :
    readValue (fuel + 1) (c :: cs) = readNumber (c :: cs) := by
  unfold readValue
  rw [skipBlanks_cons (isBlank_numberHead hc)]
  split
  all_goals first
    | rfl
    | rename_i heq
      exact absurd (List.cons.inj heq).1 (ne_of_numberHead hc (by decide) (by decide))

end

/-- A number inside a text is read up to its end. -/
theorem readValue_of_readNumber {cs rest : List Char} {j : Json}
    (h : readNumber cs = some (j, [])) (hrest : Ends rest) (fuel : Nat) :
    readValue (fuel + 1) (cs ++ rest) = some (j, rest) := by
  cases cs with
  | nil => cases h
  | cons c cs =>
    rw [List.cons_append, readValue_number (head_of_readNumber h), ← List.cons_append,
      readNumber_append hrest, h]
    rfl

/-- A value starts with neither a blank nor a closing bracket. -/
theorem Printable.head {j : Json} (h : j.Printable) : ∃ c cs, j.print = c :: cs ∧
    isBlank c = false ∧ c ≠ ']' ∧ c ≠ '}' := by
  have hnumber : ∀ {cs j}, readNumber cs = some (j, []) →
      ∃ c left, cs = c :: left ∧ isBlank c = false ∧ c ≠ ']' ∧ c ≠ '}' := by
    intro cs j h
    cases cs with
    | nil => cases h
    | cons c cs =>
      have hc := head_of_readNumber h
      exact ⟨c, cs, rfl, isBlank_numberHead hc, ne_of_numberHead hc (by decide) rfl,
        ne_of_numberHead hc (by decide) rfl⟩
  cases h with
  | null => exact ⟨_, _, rfl, by decide⟩
  | bool b => cases b <;> exact ⟨_, _, rfl, by decide⟩
  | natural n => exact hnumber (readNumber_toDigits n)
  | numeral h => exact hnumber h
  | text units => exact ⟨_, _, rfl, by decide⟩
  | list h => exact ⟨_, _, rfl, by decide⟩
  | object h => exact ⟨_, _, rfl, by decide⟩

theorem ends_cons {c : Char} (h : c = ',' ∨ c = ']' ∨ c = '}') (cs : List Char) :
    Ends (c :: cs) := by
  rintro d ⟨⟩
  exact h

/-- What a reader with some fuel reads: every value, and the items and fields of values, whose
text is not longer than that. -/
structure Reads (fuel : Nat) : Prop where
  value : ∀ j rest, j.Printable → Ends rest → j.print.length ≤ fuel →
    readValue fuel (j.print ++ rest) = some (j, rest)
  items : ∀ item items rest, (∀ j ∈ item :: items, j.Printable) →
    (printItems (item :: items)).length ≤ fuel →
      readItems fuel (printItems (item :: items) ++ rest) = some (item :: items, rest)
  fields : ∀ field fields rest, (∀ f ∈ field :: fields, f.2.Printable) →
    (printFields (field :: fields)).length ≤ fuel →
      readFields fuel (printFields (field :: fields) ++ rest) = some (field :: fields, rest)

theorem Reads.readValue_succ {fuel : Nat} (h : Reads fuel) {j : Json} {rest : List Char}
    (hj : j.Printable) (hrest : Ends rest) (hlen : j.print.length ≤ fuel + 1) :
    readValue (fuel + 1) (j.print ++ rest) = some (j, rest) := by
  cases hj with
  | null => rfl
  | bool b => cases b <;> rfl
  | natural n => exact readValue_of_readNumber (readNumber_toDigits n) hrest fuel
  | numeral hspelling => exact readValue_of_readNumber hspelling hrest fuel
  | text units =>
    have hread := readUnits_printText units rest
    simp only [print, printText, List.cons_append, List.append_assoc, readValue]
    rw [skipBlanks_cons rfl]
    simp only [List.nil_append, hread]
    rfl
  | @list items hitems =>
    cases items with
    | nil => rfl
    | cons item items =>
      have hread := h.items item items rest hitems (by simpa [print] using hlen)
      obtain ⟨c, cs, hprint, hblank, hbracket, _⟩ := (hitems item List.mem_cons_self).head
      obtain ⟨cs', hcs⟩ : ∃ cs', printItems (item :: items) ++ rest = c :: cs' := by
        cases items <;> simp [printItems, hprint]
      rw [hcs] at hread
      simp only [print, List.cons_append, hcs, readValue]
      rw [skipBlanks_cons rfl]
      simp only [skipBlanks_cons hblank]
      split
      · rename_i heq
        exact absurd (List.cons.inj heq).1 hbracket
      · rw [hread]
        rfl
  | @object fields hfields =>
    cases fields with
    | nil => rfl
    | cons field fields =>
      have hread := h.fields field fields rest hfields (by simpa [print] using hlen)
      obtain ⟨cs, hcs⟩ : ∃ cs, printFields (field :: fields) ++ rest = '"' :: cs := by
        cases fields <;> simp [printFields, printText]
      rw [hcs] at hread
      simp only [print, List.cons_append, hcs, readValue]
      rw [skipBlanks_cons rfl]
      simp only [skipBlanks_cons (show isBlank '"' = false from rfl)]
      split
      · rename_i heq
        cases heq
      · rw [hread]
        rfl

theorem Reads.readItems_succ {fuel : Nat} (h : Reads fuel) {item : Json} {items : List Json}
    {rest : List Char} (hitems : ∀ j ∈ item :: items, j.Printable)
    (hlen : (printItems (item :: items)).length ≤ fuel + 1) :
    readItems (fuel + 1) (printItems (item :: items) ++ rest) = some (item :: items, rest) := by
  have hitem := hitems item List.mem_cons_self
  cases items with
  | nil =>
    have hread := h.value item (']' :: rest) hitem (ends_cons (.inr (.inl rfl)) rest)
      (by simpa [printItems] using hlen)
    simp only [printItems, List.append_assoc, List.singleton_append, readItems, hread,
      Option.bind_eq_bind, Option.bind_some]
    rw [skipBlanks_cons rfl]
    rfl
  | cons next items =>
    have hlens : item.print.length ≤ fuel ∧ (printItems (next :: items)).length ≤ fuel := by
      simp only [printItems, List.length_append, List.length_cons] at hlen
      omega
    have hread := h.value item (',' :: (printItems (next :: items) ++ rest)) hitem
      (ends_cons (.inl rfl) _) hlens.1
    have hreads := h.items next items rest (fun j hj => hitems j (List.mem_cons_of_mem _ hj))
      hlens.2
    simp only [printItems, List.append_assoc, List.cons_append, readItems, hread,
      Option.bind_eq_bind, Option.bind_some]
    rw [skipBlanks_cons rfl]
    simp only [hreads, Option.bind_some]
    rfl

theorem Reads.readFields_succ {fuel : Nat} (h : Reads fuel) {field : List UInt16 × Json}
    {fields : List (List UInt16 × Json)} {rest : List Char}
    (hfields : ∀ f ∈ field :: fields, f.2.Printable)
    (hlen : (printFields (field :: fields)).length ≤ fuel + 1) :
    readFields (fuel + 1) (printFields (field :: fields) ++ rest) =
      some (field :: fields, rest) := by
  obtain ⟨name, value⟩ := field
  have hvalue : value.Printable := hfields _ List.mem_cons_self
  cases fields with
  | nil =>
    have hlen' : value.print.length ≤ fuel := by
      simp only [printFields, List.length_append, List.length_cons] at hlen
      omega
    have hread := h.value value ('}' :: rest) hvalue (ends_cons (.inr (.inr rfl)) rest) hlen'
    have hname := readUnits_printText name (':' :: (value.print ++ '}' :: rest))
    simp only [printFields, printText, List.append_assoc, List.cons_append, List.nil_append,
      readFields]
    rw [skipBlanks_cons rfl]
    simp only [hname, Option.bind_eq_bind, Option.bind_some]
    rw [skipBlanks_cons rfl]
    simp only [hread, Option.bind_some]
    rw [skipBlanks_cons rfl]
    rfl
  | cons next fields =>
    have hlens : value.print.length ≤ fuel ∧ (printFields (next :: fields)).length ≤ fuel := by
      simp only [printFields, List.length_append, List.length_cons] at hlen
      omega
    have hread := h.value value (',' :: (printFields (next :: fields) ++ rest)) hvalue
      (ends_cons (.inl rfl) _) hlens.1
    have hreads := h.fields next fields rest (fun f hf => hfields f (List.mem_cons_of_mem _ hf))
      hlens.2
    have hname := readUnits_printText name
      (':' :: (value.print ++ ',' :: (printFields (next :: fields) ++ rest)))
    simp only [printFields, printText, List.append_assoc, List.cons_append, List.nil_append,
      readFields]
    rw [skipBlanks_cons rfl]
    simp only [hname, Option.bind_eq_bind, Option.bind_some]
    rw [skipBlanks_cons rfl]
    simp only [hread, Option.bind_some]
    rw [skipBlanks_cons rfl]
    simp only [hreads, Option.bind_some]
    rfl

/-- Each step of the reader uses up one unit of fuel and at least one character. -/
theorem reads (fuel : Nat) : Reads fuel := by
  induction fuel with
  | zero =>
    refine ⟨fun j rest hj _ hlen => ?_, fun item items rest _ hlen => ?_,
      fun field fields rest _ hlen => ?_⟩
    · obtain ⟨c, cs, hprint, _⟩ := hj.head
      rw [hprint] at hlen
      cases hlen
    · cases items <;> simp [printItems] at hlen
    · cases fields <;> simp [printFields, printText] at hlen
  | succ fuel ih =>
    exact ⟨fun _ _ hj hrest hlen => ih.readValue_succ hj hrest hlen,
      fun _ _ _ hitems hlen => ih.readItems_succ hitems hlen,
      fun _ _ _ hfields hlen => ih.readFields_succ hfields hlen⟩

/-- The text of a value is read as this value. -/
theorem Printable.parse?_print {j : Json} (h : j.Printable) : parse? j.print = some j := by
  have hread := (reads (j.print.length + 1)).value j [] h (by rintro c ⟨⟩) (Nat.le_succ _)
  rw [List.append_nil] at hread
  unfold parse?
  simp only [hread, Option.bind_eq_bind, Option.bind_some]
  rfl

end Garbling.Json
