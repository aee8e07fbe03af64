-- The numbers and the texts in a JSON text. A number is read alike whatever
-- follows its value, as long as this is no part of a number, and its own
-- digits are read as the number. A text ends at the quote printed after it.
import Garbling.Json.Printer
import Garbling.Json.Reader
import Mathlib.Data.List.TakeWhile

namespace Garbling.Json

/-! ## Numbers -/

/-- What may follow a value: nothing, a comma or a closing bracket. -/
def Ends (rest : List Char) : Prop := ∀ c ∈ rest.head?, c = ',' ∨ c = ']' ∨ c = '}'

/-- The same result, with more text left over. -/
def leaving {α : Type} (rest : List Char) (read : α × List Char) : α × List Char :=
  (read.1, read.2 ++ rest)

section

variable {rest : List Char} (h : Ends rest)
include h

/-- No part of a number follows a value. -/
theorem Ends.head_ne {d : Char} (hd : d ≠ ',' ∧ d ≠ ']' ∧ d ≠ '}') : rest.head? ≠ some d := by
  intro hrest
  rcases h d hrest with hc | hc | hc
  · exact hd.1 hc
  · exact hd.2.1 hc
  · exact hd.2.2 hc

theorem readDigits_append (cs : List Char) :
    readDigits (cs ++ rest) = (readDigits cs).map (leaving rest) := by
  have hnone : rest.takeWhile Char.isDigit = [] ∧ rest.dropWhile Char.isDigit = rest := by
    cases rest with
    | nil => exact ⟨rfl, rfl⟩
    | cons c cs =>
      have hc : c.isDigit = false := by
        rcases h c rfl with rfl | rfl | rfl <;> rfl
      simp [hc]
  have hsplit : (cs ++ rest).takeWhile Char.isDigit = cs.takeWhile Char.isDigit ∧
      (cs ++ rest).dropWhile Char.isDigit = cs.dropWhile Char.isDigit ++ rest := by
    induction cs with
    | nil => exact hnone
    | cons c cs ih =>
      by_cases hc : c.isDigit = true
      · simp [hc, ih.1, ih.2]
      · simp [hc]
  unfold readDigits
  rw [hsplit.1, hsplit.2]
  cases cs.takeWhile Char.isDigit <;> rfl

theorem readWhole_append (cs : List Char) :
    readWhole (cs ++ rest) = (readWhole cs).map (leaving rest) := by
  unfold readWhole
  rw [readDigits_append h]
  rcases readDigits cs with _ | ⟨digits, left⟩
  · rfl
  · simp only [Option.map_some, leaving, Option.bind_eq_bind, Option.bind_some]
    split <;> rfl

omit h in
theorem readFraction_of_ne {cs : List Char} (hpoint : cs.head? ≠ some '.') :
    readFraction cs = some ([], cs) := by
  unfold readFraction
  split
  · exact absurd rfl hpoint
  · rfl

theorem readFraction_append (cs : List Char) :
    readFraction (cs ++ rest) = (readFraction cs).map (leaving rest) := by
  cases cs with
  | nil => exact readFraction_of_ne (h.head_ne (by decide))
  | cons c cs =>
    by_cases hc : c = '.'
    · subst hc
      simp only [List.cons_append, readFraction, readDigits_append h]
      rcases readDigits cs with _ | ⟨digits, left⟩ <;> rfl
    · have hfraction : ∀ cs, readFraction (c :: cs) = some ([], c :: cs) := fun cs =>
        readFraction_of_ne (by simpa using hc)
      rw [List.cons_append, hfraction, hfraction]
      rfl

omit h in
theorem readSign_of_ne {cs : List Char} (hplus : cs.head? ≠ some '+') (hminus : cs.head? ≠ some '-') :
    readSign cs = ([], cs) := by
  unfold readSign
  split
  · exact absurd rfl hplus
  · exact absurd rfl hminus
  · rfl

theorem readSign_append (cs : List Char) : readSign (cs ++ rest) = leaving rest (readSign cs) := by
  cases cs with
  | nil => exact readSign_of_ne (h.head_ne (by decide)) (h.head_ne (by decide))
  | cons c cs =>
    by_cases hplus : c = '+'
    · subst hplus
      rfl
    · by_cases hminus : c = '-'
      · subst hminus
        rfl
      · have hsign : ∀ cs, readSign (c :: cs) = ([], c :: cs) := fun cs =>
          readSign_of_ne (by simpa using hplus) (by simpa using hminus)
        rw [List.cons_append, hsign, hsign]
        rfl

theorem readExponent_append (cs : List Char) :
    readExponent (cs ++ rest) = (readExponent cs).map (leaving rest) := by
  cases cs with
  | nil =>
    cases rest with
    | nil => rfl
    | cons c left =>
      have hc : ¬ (c = 'e' ∨ c = 'E') := by
        rintro (rfl | rfl)
        · exact h.head_ne (by decide) rfl
        · exact h.head_ne (by decide) rfl
      simp only [List.nil_append, readExponent, if_neg hc]
      rfl
  | cons mark cs =>
    simp only [List.cons_append, readExponent, readSign_append h]
    split
    · simp only [leaving, readDigits_append h]
      rcases readDigits (readSign cs).2 with _ | ⟨digits, left⟩ <;> rfl
    · rfl

theorem readUnsigned_append (cs : List Char) :
    readUnsigned (cs ++ rest) = (readUnsigned cs).map (leaving rest) := by
  unfold readUnsigned
  rw [readWhole_append h]
  rcases readWhole cs with _ | ⟨whole, cs⟩
  · rfl
  simp only [Option.map_some, leaving, Option.bind_eq_bind, Option.bind_some,
    readFraction_append h]
  rcases readFraction cs with _ | ⟨fraction, cs⟩
  · rfl
  simp only [Option.map_some, leaving, Option.bind_some, readExponent_append h]
  rcases readExponent cs with _ | ⟨exponent, cs⟩
  · rfl
  simp only [Option.map_some, leaving, Option.bind_some]
  split <;> rfl

omit h in
theorem readNumber_of_ne {cs : List Char} (hminus : cs.head? ≠ some '-') :
    readNumber cs = readUnsigned cs := by
  unfold readNumber
  split
  · exact absurd rfl hminus
  · rfl

/-- A number is read alike whatever follows its value. -/
theorem readNumber_append (cs : List Char) :
    readNumber (cs ++ rest) = (readNumber cs).map (leaving rest) := by
  cases cs with
  | nil => exact (readNumber_of_ne (h.head_ne (by decide))).trans (readUnsigned_append h [])
  | cons c cs =>
    by_cases hc : c = '-'
    · subst hc
      simp only [List.cons_append, readNumber, readUnsigned_append h]
      rcases readUnsigned cs with _ | ⟨value, left⟩
      · rfl
      · cases value <;> rfl
    · have hunsigned : ∀ cs, readNumber (c :: cs) = readUnsigned (c :: cs) := fun cs =>
        readNumber_of_ne (by simpa using hc)
      rw [hunsigned, List.cons_append, hunsigned, ← List.cons_append, readUnsigned_append h]

end

/-- Only zero is written with a zero in front. -/
theorem head?_toDigits {n : Nat} (h : (Nat.toDigits 10 n).head? = some '0') : n = 0 := by
  induction n using Nat.strongRecOn with
  | ind n ih =>
    rcases Nat.lt_or_ge n 10 with hn | hn
    · rw [Nat.toDigits_of_lt_base hn] at h
      have : ∀ n < 10, n.digitChar = '0' → n = 0 := by decide
      exact this n hn (Option.some.inj h)
    · rw [Nat.toDigits_of_base_le (by decide) hn] at h
      have hhead : (Nat.toDigits 10 (n / 10)).head? = some '0' := by
        cases hcs : Nat.toDigits 10 (n / 10) with
        | nil => exact absurd hcs Nat.toDigits_ne_nil
        | cons c cs =>
          rw [hcs] at h
          exact h
      have := ih (n / 10) (by omega) hhead
      omega

/-- The digits of a number are read as this number. -/
theorem readNumber_toDigits (n : Nat) : readNumber (Nat.toDigits 10 n) = some (natural n, []) := by
  have hdigit : ∀ c ∈ Nat.toDigits 10 n, c.isDigit = true := fun c hc =>
    Nat.isDigit_of_mem_toDigits (by decide) (by decide) hc
  have hdigits : readDigits (Nat.toDigits 10 n) = some (Nat.toDigits 10 n, []) := by
    unfold readDigits
    rw [List.takeWhile_eq_self_iff.2 hdigit, List.dropWhile_eq_nil_iff.2 hdigit]
    cases hcs : Nat.toDigits 10 n with
    | nil => exact absurd hcs Nat.toDigits_ne_nil
    | cons c cs => rfl
  have hwhole : readWhole (Nat.toDigits 10 n) = some (Nat.toDigits 10 n, []) := by
    unfold readWhole
    simp only [hdigits, Option.bind_eq_bind, Option.bind_some]
    rw [if_neg]
    · rfl
    · rw [Bool.and_eq_true, decide_eq_true_eq, decide_eq_true_eq]
      rintro ⟨hzero, hlen⟩
      rw [head?_toDigits hzero] at hlen
      exact hlen rfl
  have hread : readUnsigned (Nat.toDigits 10 n) = some (natural n, []) := by
    unfold readUnsigned
    simp only [hwhole, Option.bind_eq_bind, Option.bind_some, readFraction, readExponent]
    rw [Nat.ofDigitChars_ten_toDigits]
    rfl
  cases hcs : Nat.toDigits 10 n with
  | nil => exact absurd hcs Nat.toDigits_ne_nil
  | cons c cs =>
    have hc : c.isDigit = true := hdigit c (by rw [hcs]; exact List.mem_cons_self)
    rw [hcs] at hread
    rw [readNumber_of_ne, hread]
    rintro ⟨⟩
    cases hc

/-! ## Texts -/

/-- Four hexadecimal digits name the unit that they were made from. -/
theorem unitOfDigits?_hexDigits (u : UInt16) : ∃ a b c d, hexDigits u = [a, b, c, d] ∧
    unitOfDigits? a b c d = some u := by
  have hvalue : ∀ n < 16, hexValue? n.digitChar = some n := by decide
  have hu : u.toNat < 65536 := u.toNat_lt
  refine ⟨_, _, _, _, rfl, ?_⟩
  unfold unitOfDigits?
  rw [hvalue _ (by omega), hvalue _ (by omega), hvalue _ (by omega), hvalue _ (by omega)]
  simp only [Option.bind_eq_bind, Option.bind_some]
  have hsum : ((u.toNat / 4096 * 16 + u.toNat / 256 % 16) * 16 + u.toNat / 16 % 16) * 16 +
      u.toNat % 16 = u.toNat := by
    omega
  rw [hsum, UInt16.ofNat_toNat]
  rfl

/-- A printed unit is one unit to the reader. -/
theorem readUnits_printUnit (u : UInt16) (cs : List Char) : readUnits (printUnit u ++ cs) =
    (readUnits cs).map fun read => (u :: read.1, read.2) := by
  unfold printUnit
  split
  · rename_i hplain
    simp only [Bool.and_eq_true, decide_eq_true_eq, bne_iff_ne, UInt16.le_iff_toNat_le,
      UInt16.lt_iff_toNat_lt, ne_eq, ← UInt16.toNat_inj] at hplain
    obtain ⟨⟨⟨hlow, hhigh⟩, hquote⟩, hslash⟩ := hplain
    have hlow : 32 ≤ u.toNat := hlow
    have hhigh : u.toNat < 127 := hhigh
    have hquote : u.toNat ≠ 34 := hquote
    have hslash : u.toNat ≠ 92 := hslash
    have hchar : (Char.ofNat u.toNat).toNat = u.toNat := by
      rw [Char.ofNat, dif_pos (.inl (by omega))]
      rfl
    generalize Char.ofNat u.toNat = c at hchar
    have hunits : unitsOfChar c = [u] := by
      rw [unitsOfChar, if_pos (by omega), hchar, UInt16.ofNat_toNat]
    have hc : c ≠ '"' ∧ c ≠ '\\' := by
      constructor <;> rintro rfl
      · exact hquote hchar.symm
      · exact hslash hchar.symm
    rw [List.singleton_append, readUnits.eq_def]
    split
    · rename_i heq
      cases heq
    · rename_i heq
      exact absurd (List.cons.inj heq).1 hc.1
    · rename_i heq
      exact absurd (List.cons.inj heq).1 hc.2
    · rename_i heq
      exact absurd (List.cons.inj heq).1 hc.2
    · rename_i heq
      obtain ⟨rfl, rfl⟩ := List.cons.inj heq
      rw [if_neg (by omega), hunits]
      cases readUnits cs <;> rfl
  · obtain ⟨a, b, c, d, hdigits, hunit⟩ := unitOfDigits?_hexDigits u
    rw [hdigits]
    simp only [List.cons_append, List.nil_append, readUnits, hunit]
    cases readUnits cs <;> rfl

/-- A text ends at the quote that was printed after it. -/
theorem readUnits_printText (units : List UInt16) (rest : List Char) :
    readUnits (units.flatMap printUnit ++ '"' :: rest) = some (units, rest) := by
  induction units with
  | nil => rfl
  | cons u units ih =>
    rw [List.flatMap_cons, List.append_assoc, readUnits_printUnit, ih]
    rfl

end Garbling.Json
