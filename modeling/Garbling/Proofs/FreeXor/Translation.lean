-- Translation with recorded keys. The translation table holds a single
-- bit for each wire, and translation reads a single bit of each key. Once
-- the table fits the recorded keys, what it reads off a key is the bit
-- that the key is recorded for, and no other keys pass the check.
import Garbling.Proofs.FreeXor.Soundness
import Mathlib.Data.Nat.Find

namespace Garbling.FreeXor

variable {G : Type}

/-! ## What a fitting table holds -/

/-- The blocks of an array of pairs, wire by wire. -/
theorem pairUp_many {pairs : Bytes} {n : Nat} (h : pairs.length = 2 * n * keySize) :
    pairUp (Block.many pairs) = (List.range n).map fun w =>
      (Block.ofBytes (KeyArray.keyFor keySize pairs w false),
        Block.ofBytes (KeyArray.keyFor keySize pairs w true)) := by
  let blocks : Nat → List Block := fun w =>
    [Block.ofBytes (KeyArray.keyFor keySize pairs w false),
      Block.ofBytes (KeyArray.keyFor keySize pairs w true)]
  have hkey : ∀ w < n, ∀ bit, (Block.ofBytes (KeyArray.keyFor keySize pairs w bit)).toBytes =
      KeyArray.keyFor keySize pairs w bit := fun w hw bit =>
    Block.toBytes_ofBytes (KeyArray.length_keyFor h hw)
  have hbytes : ((List.range n).flatMap blocks).flatMap Block.toBytes = pairs := by
    have hpairs := KeyArray.flatMap_keyFor h
    rw [List.flatMap_def] at hpairs
    rw [List.flatMap_assoc, List.flatMap_def]
    refine Eq.trans ?_ hpairs
    congr 1
    refine List.map_congr_left fun w hmem => ?_
    have hw := List.mem_range.1 hmem
    simp [blocks, hkey w hw]
  rw [← pairUp_flatMap, ← Block.many_flatMap_toBytes ((List.range n).flatMap blocks), hbytes]

/-- A check of each element of a list beside an entry is one check for each entry. -/
theorem all_zip_range {α β : Type} {f : Nat → α} {entries : List β} {n : Nat}
    (h : entries.length = n) (p : α × β → Bool) :
    (((List.range n).map f).zip entries).all p = true ↔
      ∀ (i : Nat) entry, entries[i]? = some entry → p (f i, entry) = true := by
  rw [List.all_eq_true]
  constructor
  · intro hall i entry hentry
    have hi : i < n := by
      rw [← h]
      exact (List.getElem?_eq_some_iff.1 hentry).1
    refine hall _ (List.mem_iff_getElem?.2 ⟨i, ?_⟩)
    simp [List.getElem?_zip_eq_some, hentry, hi]
  · intro hall pair hmem
    obtain ⟨i, hi⟩ := List.mem_iff_getElem?.1 hmem
    obtain ⟨hleft, hright⟩ := List.getElem?_zip_eq_some.1 hi
    have hi : i < n := by
      rw [← h]
      exact (List.getElem?_eq_some_iff.1 hright).1
    rw [List.getElem?_map, List.getElem?_range hi, Option.map_some, Option.some.injEq] at hleft
    have hentry := hall i pair.2 hright
    rwa [hleft] at hentry

theorem toUInt8_beq_one (b : Bool) : (b.toUInt8 == 1) = b := by
  cases b <;> rfl

theorem entry_of_entryHolds {pair : Block × Block} {entry : UInt8}
    (h : entryHolds pair entry = true) : entry = pair.1.signal.toUInt8 := by
  unfold entryHolds at h
  simp only [Bool.and_eq_true, decide_eq_true_eq, beq_iff_eq] at h
  obtain ⟨⟨hle, hsignal⟩, _⟩ := h
  rw [hsignal]
  have hle : entry.toNat ≤ 1 := UInt8.le_iff_toNat_le.1 hle
  rcases Nat.le_one_iff_eq_zero_or_eq_one.1 hle with h0 | h1
  · have : entry = 0 := UInt8.toNat_inj.1 h0
    subst this
    rfl
  · have : entry = 1 := UInt8.toNat_inj.1 h1
    subst this
    rfl

/-- An entry holds if it is the signal of the key for 0, and not that of the key for 1. -/
theorem entryHolds_iff {pair : Block × Block} {entry : UInt8} : entryHolds pair entry = true ↔
    entry = pair.1.signal.toUInt8 ∧ entry = (!pair.2.signal).toUInt8 := by
  have hle : ∀ b : Bool, b.toUInt8 ≤ 1 := by decide
  have hinj : ∀ a b : Bool, a.toUInt8 = (!b).toUInt8 ↔ b ≠ a := by decide
  constructor
  · intro h
    have hentry := entry_of_entryHolds h
    subst hentry
    unfold entryHolds at h
    simp only [toUInt8_beq_one, Bool.and_eq_true, bne_iff_ne] at h
    exact ⟨rfl, (hinj _ _).2 h.2⟩
  · rintro ⟨rfl, h⟩
    unfold entryHolds
    simp [toUInt8_beq_one, hle, (hinj _ _).1 h]

/-- A translation table fits an array of pairs if, for each wire and either bit, its entry is
what the signal of the key for the bit adds to the bit. -/
theorem verifyTranslation_eq_true {c : FreeXor G} {pairs : Bytes} :
    c.verifyTranslation pairs = true ↔ pairs.length = 2 * c.outputCount * keySize ∧
      c.translation.length = c.outputCount ∧ ∀ wire < c.outputCount, ∀ bit,
        c.translation[wire]? =
          some (keySignal (KeyArray.keyFor keySize pairs wire bit) ^^ bit).toUInt8 := by
  unfold verifyTranslation
  rw [Bool.and_eq_true, Bool.and_eq_true, beq_iff_eq, beq_iff_eq, and_assoc]
  refine and_congr_right fun hpairs => and_congr_right fun hcount => ?_
  rw [pairUp_many hpairs, all_zip_range hcount]
  constructor
  · intro h wire hwire bit
    obtain ⟨entry, hentry⟩ : ∃ entry, c.translation[wire]? = some entry :=
      ⟨_, List.getElem?_eq_getElem (by omega)⟩
    obtain ⟨h0, h1⟩ := entryHolds_iff.1 (h wire entry hentry)
    rw [hentry]
    cases bit with
    | false => rw [Bool.xor_false, h0, keySignal]
    | true => rw [Bool.xor_true, h1, keySignal]
  · intro h wire entry hentry
    have hwire : wire < c.outputCount := by
      rw [← hcount]
      exact (List.getElem?_eq_some_iff.1 hentry).1
    have h0 := h wire hwire false
    have h1 := h wire hwire true
    rw [hentry, Option.some.injEq] at h0 h1
    rw [Bool.xor_false] at h0
    rw [Bool.xor_true] at h1
    exact entryHolds_iff.2 ⟨h0, h1⟩

/-- A table that fits holds the signals of the keys for 0. -/
theorem translation_of_verifyTranslation {c : FreeXor G} {pairs : Bytes}
    (h : c.verifyTranslation pairs = true) :
    c.translation = (List.range c.outputCount).map fun wire =>
      (keySignal (KeyArray.keyFor keySize pairs wire false)).toUInt8 := by
  obtain ⟨_, hcount, hentry⟩ := verifyTranslation_eq_true.1 h
  apply List.ext_getElem?
  intro wire
  rcases Nat.lt_or_ge wire c.outputCount with hwire | hwire
  · rw [hentry wire hwire false, Bool.xor_false, List.getElem?_map, List.getElem?_range hwire,
      Option.map_some]
  · rw [List.getElem?_eq_none (by omega), List.getElem?_eq_none]
    rwa [List.length_map, List.length_range]

/-- The keys for the two bits of a wire differ in their signal. -/
theorem keySignal_keyFor {c : FreeXor G} {pairs : Bytes} (h : c.verifyTranslation pairs = true)
    {wire : Nat} (hwire : wire < c.outputCount) (bit : Bool) :
    keySignal (KeyArray.keyFor keySize pairs wire bit) =
      (keySignal (KeyArray.keyFor keySize pairs wire false) ^^ bit) := by
  obtain ⟨_, _, hentry⟩ := verifyTranslation_eq_true.1 h
  have hsame := Option.some.inj ((hentry wire hwire bit).symm.trans (hentry wire hwire false))
  have hsignal : ∀ a b d : Bool, (a ^^ d).toUInt8 = (b ^^ false).toUInt8 → a = (b ^^ d) := by
    decide
  exact hsignal _ _ bit hsame

/-- A translation table that fits the keys of an encoding translates them. -/
theorem translates_of_verifyTranslation {c : FreeXor G} {offset : Block} {zero : Nat → Block}
    (h : c.verifyTranslation (c.outputPairs offset zero) = true) : c.Translates zero := by
  rw [Translates, translation_of_verifyTranslation h, outputs_eq_map_range, List.map_map]
  refine List.map_congr_left fun wire hmem => ?_
  rw [outputPairs_eq, keyFor_labelPairs (List.mem_range.1 hmem), keySignal, Block.ofBytes_toBytes]
  rfl

theorem verifyTranslation_of_translates {c : FreeXor G} {offset : Block} {zero : Nat → Block}
    (h : offset.signal = true) (ht : c.Translates zero) :
    c.verifyTranslation (c.outputPairs offset zero) = true := by
  have hcount : c.translation.length = c.outputCount := by
    rw [ht, List.length_map]
    rfl
  refine verifyTranslation_eq_true.2 ⟨length_outputPairs c offset zero, hcount, ?_⟩
  intro wire hwire bit
  rw [ht, outputs_eq_map_range, List.map_map, List.getElem?_map, List.getElem?_range hwire,
    Option.map_some, outputPairs_eq, keyFor_labelPairs hwire, keySignal, Block.ofBytes_toBytes,
    signal_labelFor h, Bool.xor_assoc, Bool.xor_self, Bool.xor_false]
  rfl

/-! ## Recorded keys -/

/-- The recorded keys for some bits translate to these bits. -/
theorem translate_choose_of_verifyTranslation {c : FreeXor G} {pairs : Bytes}
    (h : c.verifyTranslation pairs = true) (bit : Nat → Bool) :
    c.translate (KeyArray.choose keySize c.outputCount pairs bit) =
      .ok ((List.range c.outputCount).map fun wire => (bit wire).toUInt8) := by
  have hlen := (verifyTranslation_eq_true.1 h).1
  rw [translate_of_entries (translation_of_verifyTranslation h) (KeyArray.length_choose hlen bit)]
  refine congrArg Except.ok (List.map_congr_left fun wire hmem => ?_)
  have hwire := List.mem_range.1 hmem
  rw [KeyArray.piece_choose hlen hwire, keySignal_keyFor h hwire, Bool.xor_comm, ← Bool.xor_assoc,
    Bool.xor_self, Bool.false_xor]

/-- The recorded keys tell for which bits they are chosen. -/
theorem bits_of_choose_eq {c : FreeXor G} {pairs : Bytes} (h : c.verifyTranslation pairs = true)
    {bit bit' : Nat → Bool} (heq : KeyArray.choose keySize c.outputCount pairs bit =
      KeyArray.choose keySize c.outputCount pairs bit') {wire : Nat}
    (hwire : wire < c.outputCount) : bit wire = bit' wire := by
  have hbytes := (translate_choose_of_verifyTranslation h bit).symm.trans
    (heq ▸ translate_choose_of_verifyTranslation h bit')
  have hinj : ∀ a b : Bool, a.toUInt8 = b.toUInt8 → a = b := by decide
  exact hinj _ _ (List.map_inj_left.1 (Except.ok.inj hbytes) wire (List.mem_range.2 hwire))

/-- With a translation table that fits the recorded keys, the checked translation gives some
bits exactly on the recorded keys for these bits, and no keys are recorded for two choices of
bits. Where a key is neither of the two recorded ones, the error names the first such wire. -/
theorem verified_translation_decodes_exactly_recorded_keys {c : FreeXor G} {pairs : Bytes}
    (h : c.verifyTranslation pairs = true) (output : Bytes) :
    (∀ bytes, c.verifiedTranslate output pairs = .ok bytes ↔ ∃ bit : Nat → Bool,
      output = KeyArray.choose keySize c.outputCount pairs bit ∧
      bytes = (List.range c.outputCount).map fun wire => (bit wire).toUInt8) ∧
    (∀ bit bit' : Nat → Bool, KeyArray.choose keySize c.outputCount pairs bit =
      KeyArray.choose keySize c.outputCount pairs bit' →
        ∀ wire < c.outputCount, bit wire = bit' wire) ∧
    (output.length = c.outputCount * keySize →
      (∃ wire < c.outputCount, KeyArray.Foreign keySize output pairs wire) →
      ∃ wire < c.outputCount, KeyArray.Foreign keySize output pairs wire ∧
        (∀ before < wire, ¬ KeyArray.Foreign keySize output pairs before) ∧
        c.verifiedTranslate output pairs = .error (.cheatAttempt wire)) := by
  have hpairs := (verifyTranslation_eq_true.1 h).1
  refine ⟨fun bytes => ?_, fun _ _ heq _ => bits_of_choose_eq h heq, fun hlen hforeign => ?_⟩
  · unfold verifiedTranslate
    rw [check_bind_eq_ok, KeyArray.checkAllRecorded_eq_ok]
    constructor
    · rintro ⟨⟨_, bit, rfl⟩, htranslate⟩
      rw [translate_choose_of_verifyTranslation h, Except.ok.injEq] at htranslate
      exact ⟨bit, rfl, htranslate.symm⟩
    · rintro ⟨bit, rfl, rfl⟩
      exact ⟨⟨hpairs, bit, rfl⟩, translate_choose_of_verifyTranslation h bit⟩
  · obtain ⟨hwire, hkey⟩ := Nat.find_spec hforeign
    have hfirst : ∀ before < Nat.find hforeign, ¬ KeyArray.Foreign keySize output pairs before :=
      fun before hbefore hkey =>
        Nat.find_min hforeign hbefore ⟨Nat.lt_trans hbefore hwire, hkey⟩
    refine ⟨Nat.find hforeign, hwire, hkey, hfirst, ?_⟩
    rw [verifiedTranslate, KeyArray.checkAllRecorded_eq_error hlen hpairs hwire hkey hfirst]
    rfl

/-- One input wire that is read out twice, with translation entries 0 and 1. -/
def twoReadings : FreeXor (StreamGenerator .aesCounter) where
  circuit := ⟨[1], [], [0, 0]⟩
  valid := by decide
  generator := {}
  translation := [0, 1]

-- the keys 2 and 3 of the first reading, and 5 and 4 of the second
def readingPairs : Bytes := [2, 3, 5, 4].flatMap Block.toBytes

theorem readings_of_recorded_and_foreign_keys :
    twoReadings.verifyTranslation readingPairs = true ∧
    twoReadings.verifiedTranslate ([3, 5].flatMap Block.toBytes) readingPairs = .ok [1, 0] ∧
    ∃ wire < 2, KeyArray.Foreign keySize ([2, 7].flatMap Block.toBytes) readingPairs wire ∧
      twoReadings.verifiedTranslate ([2, 7].flatMap Block.toBytes) readingPairs =
        .error (.cheatAttempt wire) := by
  have h : twoReadings.verifyTranslation readingPairs = true := by decide
  refine ⟨h, ?_, ?_⟩
  · refine ((verified_translation_decodes_exactly_recorded_keys h _).1 [1, 0]).2
      ⟨fun wire => wire == 0, ?_, ?_⟩
    · decide
    · decide
  · obtain ⟨wire, hwire, hforeign, _, herror⟩ :=
      (verified_translation_decodes_exactly_recorded_keys h ([2, 7].flatMap Block.toBytes)).2.2
        (by decide) ⟨1, by decide, by decide⟩
    exact ⟨wire, hwire, hforeign, herror⟩

end Garbling.FreeXor
