-- Auditing in two parts: first the tables, and later the translation
-- table with the keys that the first part gave. Without layers this is the
-- full audit. With an output layer, the keys that leave the circuit are
-- read in the place of the inner ones, and the answer is the same only
-- where both show the same signals.
import Garbling.Proofs.Layered.Completeness

namespace Garbling

namespace FreeXor

variable {G : Type}

/-! ## Arrays with the same signals -/

/-- Both arrays are of one length, and show the same signals. -/
def SameSignals (c : FreeXor G) (pairs pairs' : Bytes) : Prop :=
  pairs'.length = pairs.length ∧ ∀ wire < c.outputCount, ∀ bit,
    keySignal (KeyArray.keyFor keySize pairs' wire bit) =
      keySignal (KeyArray.keyFor keySize pairs wire bit)

/-- A translation table cannot tell arrays with the same signals apart. -/
theorem SameSignals.verifyTranslation {c : FreeXor G} {pairs pairs' : Bytes}
    (h : c.SameSignals pairs pairs') : c.verifyTranslation pairs' = c.verifyTranslation pairs := by
  obtain ⟨hlen, hsignal⟩ := h
  rw [Bool.eq_iff_iff, verifyTranslation_eq_true, verifyTranslation_eq_true, hlen]
  refine and_congr_right fun _ => and_congr_right fun _ => ?_
  refine forall_congr' fun wire => forall_congr' fun hwire => forall_congr' fun bit => ?_
  rw [hsignal wire hwire bit]

theorem sameSignals_of_verifyTranslation {c : FreeXor G} {pairs pairs' : Bytes}
    (h : c.verifyTranslation pairs = true) (h' : c.verifyTranslation pairs' = true) :
    c.SameSignals pairs pairs' := by
  obtain ⟨hlen, _, hentry⟩ := verifyTranslation_eq_true.1 h
  obtain ⟨hlen', _, hentry'⟩ := verifyTranslation_eq_true.1 h'
  refine ⟨hlen'.trans hlen.symm, fun wire hwire bit => ?_⟩
  have hinj : ∀ a b d : Bool, (a ^^ d).toUInt8 = (b ^^ d).toUInt8 → a = b := by decide
  have hsame := (hentry' wire hwire bit).symm.trans (hentry wire hwire bit)
  exact hinj _ _ bit (Option.some.inj hsame)

/-! ## Without layers -/

theorem verifyTranslation_of_internalVerify {c : FreeXor G} {pairs outputs : Bytes}
    (h : c.internalVerify pairs = some outputs) : c.verifyTranslation outputs = c.verify pairs := by
  rw [verify, h]

end FreeXor

namespace Layered

variable {P G : Type}

/-! ## Through the layers -/

/-- An output side without tables gives the inner keys out. -/
theorem outer_eq_inner {c : Layered P G} {pairs : Bytes} {outputs : AuditedOutputs}
    (h : c.audit pairs = .ok outputs) (htables : c.output.tables = none) :
    outputs.outer = outputs.inner := by
  obtain ⟨_, _, _, hout⟩ := audit_eq_ok.1 h
  unfold Side.audit Side.active at hout
  rw [htables] at hout
  cases hlayered : c.output.layered with
  | false =>
    rw [hlayered] at hout
    exact (Except.ok.inj hout).symm
  | true =>
    rw [hlayered] at hout
    cases hout

section

variable [Generator P] [Generator G]

/-- Checking the translation table later, with the keys that the audit of the tables gave, is
the full audit for a circuit without layers, and for one whose output keys are not pinned. With
pinned output keys, it accepts what the full audit accepts if and only if these keys show the
signals of the inner ones, and then it also refuses what the full audit refuses for no other
reason than the translation table. -/
theorem deferred_check_agrees_where_the_signals_do {c c' : Layered P G} {keys : KeyMaterial}
    (hgarbles : c.Garbles keys c') {pairs outputs : Bytes}
    (h : c'.internalVerify pairs = some outputs) :
    (∀ (bare : FreeXor G) barePairs bareOutputs, bare.internalVerify barePairs = some bareOutputs →
      bare.verifyTranslation bareOutputs = bare.verify barePairs) ∧
    ∃ inner, c'.audit pairs = .ok { inner, outer := outputs } ∧
      (c'.output.pinned = none → c'.verifyTranslation outputs = c'.verify pairs) ∧
      (c'.verify pairs = true →
        (c'.verifyTranslation outputs = true ↔ c'.inner.SameSignals inner outputs)) ∧
      (c'.inner.SameSignals inner outputs → (∀ pinned ∈ c'.output.pinned, outputs = pinned) →
        c'.verifyTranslation outputs = c'.verify pairs) := by
  refine ⟨fun _ _ _ => FreeXor.verifyTranslation_of_internalVerify, ?_⟩
  obtain ⟨inner, haudit⟩ := internalVerify_eq_some.1 h
  refine ⟨inner, haudit, ?_, ?_, ?_⟩
  · intro hpinned
    have htables := tables_eq_none_of_pinned hgarbles.isSome_tables.2 hpinned
    have hsame := outer_eq_inner haudit htables
    simp only at hsame
    subst hsame
    simp [verify, haudit, hpinned]
  · intro hverify
    have htranslation : c'.verifyTranslation inner = true := by
      simp only [verify, haudit, Bool.and_eq_true] at hverify
      exact hverify.2
    constructor
    · exact FreeXor.sameSignals_of_verifyTranslation htranslation
    · intro hsignals
      exact hsignals.verifyTranslation.trans htranslation
  · intro hsignals hpinned
    have houter : c'.output.pinned.all (· == outputs) = true := by
      cases hkeys : c'.output.pinned with
      | none => rfl
      | some pinned => simp [hpinned pinned hkeys]
    simp only [verify, haudit, houter, Bool.true_and]
    exact hsignals.verifyTranslation

end

/-! ## Pinned output keys with other signals -/

-- a key of zeros for 0, and one of the bytes 0x11 for 1
def wireKeys : Bytes := Bytes.zeros 16 ++ List.replicate 16 0x11

/-- One wire, with pinned output keys. -/
def pinnedWire : Layered (StreamGenerator .aesCounter) (StreamGenerator .aesCounter) :=
  { newWire with output := { layered := true, pinned := some wireKeys } }

theorem garbleSeeded_pinnedWire : ∃ keys c',
    pinnedWire.garbleSeeded (Bytes.zeros 16) = (.ok keys, c') ∧
      c'.internalVerify keys.inputKeys = some wireKeys ∧ c'.verify keys.inputKeys = true ∧
      c'.verifyTranslation wireKeys = false := by
  have hok : (pinnedWire.garbleSeeded (Bytes.zeros 16)).1.toOption.isSome = true := by
    decide +kernel
  have hdiffer : (pinnedWire.garbleSeeded (Bytes.zeros 16)).2.output.SentinelsDiffer .block := by
    decide +kernel
  have hrefuses : (pinnedWire.garbleSeeded (Bytes.zeros 16)).2.verifyTranslation wireKeys =
      false := by
    decide +kernel
  rcases hgarble : pinnedWire.garbleSeeded (Bytes.zeros 16) with ⟨e | keys, c'⟩
  · rw [hgarble] at hok
    cases hok
  rw [hgarble] at hdiffer hrefuses
  have hnew : newWire.IsNew ⟨[1], [], [0]⟩ .block := ⟨{}, _, {}, rfl, rfl⟩
  have hprepared : newWire.Prepared none (some wireKeys) pinnedWire := .setOutputKeys .new rfl
  obtain ⟨hcircuit, _, hscheme, hinput, houtput, offset, zero, honest⟩ :=
    hprepared.honest hnew (.seeded (Bytes.zeros 16) hgarble)
  have law : c'.scheme.Lawful := hscheme ▸ Scheme.lawful_block
  have hwires : 0 < c'.inner.inputCount := by
    rw [FreeXor.inputCount, hcircuit]
    decide
  have hin : c'.input.SentinelsDiffer c'.scheme := by
    intro tables htables
    have hnone := tables_eq_none_of_pinned
      (Garbles.seeded (Bytes.zeros 16) hgarble).isSome_tables.1 hinput
    rw [hnone] at htables
    cases htables
  have hout : c'.output.SentinelsDiffer c'.scheme := by
    rw [hscheme]
    exact hdiffer
  refine ⟨keys, c', rfl, ?_, honest.verify law hin hout hwires, hrefuses⟩
  rw [internalVerify, honest.audit law hin hout hwires, honest.outputPinned wireKeys houtput]
  rfl

theorem deferred_check_of_a_pinned_wire : ∃ keys c' outputs, pinnedWire.Garbles keys c' ∧
    c'.internalVerify keys.inputKeys = some outputs ∧
    ∃ inner, c'.audit keys.inputKeys = .ok { inner, outer := outputs } ∧
      c'.verify keys.inputKeys = true ∧ ¬ c'.inner.SameSignals inner outputs := by
  obtain ⟨keys, c', hgarble, hverify, haccepts, hrefuses⟩ := garbleSeeded_pinnedWire
  have hgarbles : pinnedWire.Garbles keys c' := .seeded (Bytes.zeros 16) hgarble
  obtain ⟨_, inner, haudit, _, hsame, _⟩ :=
    deferred_check_agrees_where_the_signals_do hgarbles hverify
  refine ⟨keys, c', wireKeys, hgarbles, hverify, inner, haudit, haccepts, ?_⟩
  rw [← hsame haccepts, hrefuses]
  exact Bool.false_ne_true

/-- The full audit accepts the keys of an honest garbling, and the deferred check refuses them. -/
theorem deferred_check_refuses_an_honest_garbling :
    newWire.setOutputKeys wireKeys = .ok pinnedWire ∧
    ∃ keys c', pinnedWire.garbleSeeded (Bytes.zeros 16) = (.ok keys, c') ∧
      c'.internalVerify keys.inputKeys = some wireKeys ∧ c'.verify keys.inputKeys = true ∧
      c'.verifyTranslation wireKeys = false :=
  ⟨rfl, garbleSeeded_pinnedWire⟩

end Layered

end Garbling
