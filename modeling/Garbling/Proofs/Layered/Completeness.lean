-- The audit is complete through the layers: an honest garbling of a
-- circuit with input wires passes it for the keys that it reported if the
-- sentinels of all identity tables differ, and otherwise not at all.
import Garbling.Proofs.FreeXor.Completeness
import Garbling.Proofs.FreeXor.Translation
import Garbling.Proofs.Layered.Preparation

namespace Garbling

/-- A layer passes the audit if both keys open their rows at each of its gates. -/
theorem Layer.audit_of_opensAt {s : Scheme} {tables : Tables} {wires : Nat}
    {source target : Layer.Keys} (hslots : tables.size = wires)
    (hs : source.bytes.length = 2 * wires * source.size)
    (ht : target.bytes.length = 2 * wires * target.size)
    (h : ∀ position < wires, OpensAt s tables source target position) :
    audit s tables wires source target.size = .ok target.bytes := by
  have hgates : (List.range wires).mapM (auditAt s tables source target.size) =
      .ok ((List.range wires).map fun w =>
        KeyArray.keyFor target.size target.bytes w false ++
          KeyArray.keyFor target.size target.bytes w true) := by
    refine mapM_ok fun w hmem => ?_
    have hw : w < wires := List.mem_range.1 hmem
    obtain ⟨table, second, htable, hlen, hopens⟩ := h w hw
    have h0 := hopens false
    have h1 := hopens true
    rw [Bool.xor_false] at h0
    rw [Bool.xor_true] at h1
    have haudit : IdentityGate.audit s (gateNumber w) table
        (KeyArray.keyFor source.size source.bytes w false,
          KeyArray.keyFor source.size source.bytes w true) target.size =
        .ok (KeyArray.keyFor target.size target.bytes w false,
          KeyArray.keyFor target.size target.bytes w true) :=
      IdentityGate.audit_eq_ok.2 ⟨hlen, second, h0, h1⟩
    unfold auditAt
    simp only [htable, Keys.pairAt?_eq_some hs hw, auditRange, ok_bind, haudit]
    rfl
  unfold audit
  refine guard_eq_ok.2 ⟨by simp [hslots], ?_⟩
  refine guard_eq_ok.2 ⟨by simp [hs], ?_⟩
  refine bind_eq_ok.2 ⟨_, hgates, ?_⟩
  rw [pure_eq_ok, ← List.flatMap_def]
  exact KeyArray.flatMap_keyFor ht

theorem Side.Honest.audit {s : Scheme} (law : s.Lawful) {side : Side} {wires m n : Nat}
    {source target : Layer.Keys} (h : side.Honest s wires source target)
    (hdiffer : side.SentinelsDiffer s) (hm : side.layered = true → source.size = m)
    (hn : side.layered = true → target.size = n) :
    side.audit s wires source.bytes m n = .ok target.bytes := by
  unfold Side.audit
  rcases h with ⟨hlayered, _, rfl⟩ | ⟨tables, hlayered, htables, _, h⟩
  · rw [Side.active_eq_ok_none.2 hlayered]
  · rw [Side.active_eq_ok_some.2 ⟨hlayered, htables⟩, ← hm hlayered, ← hn hlayered]
    exact Layer.audit_of_opensAt h.size h.sourceLength h.targetLength fun position hposition =>
      h.opensAt law (hdiffer.at htables) hposition

/-- The audit of a layer refuses a table whose sentinels coincide. -/
theorem Layer.sentinelsDiffer_of_audit {s : Scheme} {tables : Tables} {wires outputSize : Nat}
    {source : Layer.Keys} {output : Bytes}
    (h : audit s tables wires source outputSize = .ok output) :
    ∀ table ∈ tables.present, IdentityGate.SentinelsDiffer s table := by
  intro table hmem
  obtain ⟨hslots, _, _, hopens⟩ := opensAt_of_audit h
  obtain ⟨position, htable⟩ := Tables.mem_present_iff.1 hmem
  have hposition : position < wires := by
    rw [← hslots]
    exact Tables.lt_size_of_get? htable
  obtain ⟨found, second, hfound, _, hboth⟩ := hopens position hposition
  rw [htable, Option.some.injEq] at hfound
  subst hfound
  exact IdentityGate.sentinelsDiffer_of_opens (hboth false)

theorem Side.sentinelsDiffer_of_audit {s : Scheme} {side : Side} {wires m n : Nat}
    {pairs output : Bytes} (h : side.audit s wires pairs m n = .ok output)
    (htables : side.tables.isSome = side.layered) : side.SentinelsDiffer s := by
  intro tables hmem
  have hsome : side.tables = some tables := hmem
  rw [hsome] at htables
  have hactive := Side.active_eq_ok_some.2 ⟨htables.symm, hsome⟩
  unfold Side.audit at h
  rw [hactive] at h
  exact Layer.sentinelsDiffer_of_audit h

namespace Layered

variable {P G : Type}

section

variable {c : Layered P G} {keys : KeyMaterial} {offset : Block} {zero : Nat → Block}

/-- The input side leads the reported keys to those of the inner circuit. -/
theorem Honest.auditInput (law : c.scheme.Lawful) (h : c.Honest keys offset zero)
    (hin : c.input.SentinelsDiffer c.scheme) :
    c.input.audit c.scheme c.inner.inputCount keys.inputKeys c.scheme.cipherSize FreeXor.keySize =
      .ok (c.inner.inputPairs offset zero) :=
  h.input.audit law hin inputKeySize_of_layered fun _ => rfl

theorem Honest.auditInner (h : c.Honest keys offset zero) (hwires : 0 < c.inner.inputCount) :
    c.inner.audit (c.inner.inputPairs offset zero) = .ok (c.inner.outputPairs offset zero) := by
  obtain ⟨_, hinner⟩ := h.inner
  exact FreeXor.audit_of_consistent hinner.signal hinner.audits hinner.slots hwires

/-- The output side leads the keys of the inner circuit to the reported ones. -/
theorem Honest.auditOutput (law : c.scheme.Lawful) (h : c.Honest keys offset zero)
    (hout : c.output.SentinelsDiffer c.scheme) :
    c.output.audit c.scheme c.inner.outputCount (c.inner.outputPairs offset zero) FreeXor.keySize
      c.scheme.cipherSize = .ok keys.outputKeys :=
  h.output.audit law hout (fun _ => rfl) outputKeySize_of_layered

/-- The audit of an honest garbling gives the keys that were reported. -/
theorem Honest.audit (law : c.scheme.Lawful) (h : c.Honest keys offset zero)
    (hin : c.input.SentinelsDiffer c.scheme) (hout : c.output.SentinelsDiffer c.scheme)
    (hwires : 0 < c.inner.inputCount) : c.audit keys.inputKeys =
      .ok { inner := c.inner.outputPairs offset zero, outer := keys.outputKeys } :=
  audit_eq_ok.2 ⟨_, h.auditInput law hin, h.auditInner hwires, h.auditOutput law hout⟩

theorem Honest.verify (law : c.scheme.Lawful) (h : c.Honest keys offset zero)
    (hin : c.input.SentinelsDiffer c.scheme) (hout : c.output.SentinelsDiffer c.scheme)
    (hwires : 0 < c.inner.inputCount) : c.verify keys.inputKeys = true := by
  obtain ⟨_, hinner⟩ := h.inner
  exact verify_eq_true.2 ⟨_, h.audit law hin hout hwires, h.outputPinned,
    FreeXor.verifyTranslation_of_translates hinner.signal hinner.translates⟩

/-- The audit of an honest garbling refuses all keys if some sentinels coincide. -/
theorem Honest.sentinelsDiffer_of_audit (h : c.Honest keys offset zero) {pairs : Bytes}
    {outputs : AuditedOutputs} (haudit : c.audit pairs = .ok outputs) :
    c.input.SentinelsDiffer c.scheme ∧ c.output.SentinelsDiffer c.scheme := by
  obtain ⟨_, hin, _, hout⟩ := audit_eq_ok.1 haudit
  exact ⟨Side.sentinelsDiffer_of_audit hin h.input.isSome_tables,
    Side.sentinelsDiffer_of_audit hout h.output.isSome_tables⟩

end

/-! ## The exact condition -/

section

variable {P G : Type} [Generator P] [Generator G]

/-- For the keys that an honest garbling reported, the audit gives the reported output keys and
accepts these only, if the sentinels of each identity gate differ. If those of some gate
coincide, it refuses the keys. -/
theorem honest_garbling_is_accepted_iff_its_sentinels_differ {circuit : Circuit} {scheme : Scheme}
    (hscheme : scheme.Shipped) {start c c' : Layered P G} (hstart : start.IsNew circuit scheme)
    {inputKeys outputKeys : Option Bytes} (hprepared : start.Prepared inputKeys outputKeys c)
    {keys : KeyMaterial} (hgarbles : c.Garbles keys c') (hwires : 0 < circuit.inputCount) :
    (c'.input.SentinelsDiffer scheme ∧ c'.output.SentinelsDiffer scheme →
      c'.internalVerify keys.inputKeys = some keys.outputKeys ∧
      c'.verify keys.inputKeys = true ∧
      ∀ expected, c'.verifyWithOutputs keys.inputKeys expected = true ↔
        expected = keys.outputKeys) ∧
    (¬ (c'.input.SentinelsDiffer scheme ∧ c'.output.SentinelsDiffer scheme) →
      c'.internalVerify keys.inputKeys = none ∧ c'.verify keys.inputKeys = false ∧
      ∀ expected, c'.verifyWithOutputs keys.inputKeys expected = false) := by
  obtain ⟨hcircuit, _, hsch, _, _, offset, zero, honest⟩ := hprepared.honest hstart hgarbles
  have law : c'.scheme.Lawful := hsch ▸ hscheme.lawful
  have hinputs : 0 < c'.inner.inputCount := by
    rw [FreeXor.inputCount, hcircuit]
    exact hwires
  rw [← hsch]
  constructor
  · rintro ⟨hin, hout⟩
    have haudit := honest.audit law hin hout hinputs
    refine ⟨?_, honest.verify law hin hout hinputs, ?_⟩
    · rw [internalVerify, haudit]
      rfl
    · intro expected
      obtain ⟨_, hinner⟩ := honest.inner
      have htranslation : c'.verifyTranslation (c'.inner.outputPairs offset zero) = true :=
        FreeXor.verifyTranslation_of_translates hinner.signal hinner.translates
      simp only [verifyWithOutputs, haudit, htranslation, Bool.and_true, beq_iff_eq]
      exact eq_comm
  · intro hcoincide
    rcases haudit : c'.audit keys.inputKeys with e | outputs
    · simp [internalVerify, verify, verifyWithOutputs, haudit, Except.toOption]
    · exact absurd (honest.sentinelsDiffer_of_audit haudit) hcoincide

end

/-- The negation of one bit, with one key pinned for both values of the input. -/
def ambiguousNegation : Layered (StreamGenerator .aesCounter) (StreamGenerator .aesCounter) :=
  { newNegation with input := { layered := true, pinned := some (Bytes.zeros 32) } }

theorem garble_ambiguousNegation : ∃ keys c',
    ambiguousNegation.garble 7 (fun _ => true) = (.ok keys, c') ∧
      ¬ c'.input.SentinelsDiffer .block := by
  have hok : (ambiguousNegation.garble 7 fun _ => true).1.toOption.isSome = true := by
    decide +kernel
  have hin : ¬ (ambiguousNegation.garble 7 fun _ => true).2.input.SentinelsDiffer .block := by
    decide +kernel
  rcases h : ambiguousNegation.garble 7 (fun _ => true) with ⟨e | keys, c'⟩
  · rw [h] at hok
    cases hok
  · rw [h] at hin
    exact ⟨keys, c', rfl, hin⟩

theorem pinned_negation_is_accepted_and_ambiguous_negation_is_not :
    (∃ keys c', pinnedNegation.Garbles keys c' ∧
      c'.internalVerify keys.inputKeys = some keys.outputKeys ∧
      c'.verify keys.inputKeys = true ∧
      ∀ expected, c'.verifyWithOutputs keys.inputKeys expected = true ↔
        expected = keys.outputKeys) ∧
    ∃ keys c', ambiguousNegation.Garbles keys c' ∧ c'.internalVerify keys.inputKeys = none := by
  have hnew : newNegation.IsNew ⟨[1], [.not 0], [1]⟩ .block := ⟨{}, _, {}, rfl, rfl⟩
  constructor
  · obtain ⟨keys, c', hgarble, hin, hout⟩ := garble_pinnedNegation
    have hprepared : newNegation.Prepared (some negationKeys) (some negationKeys) pinnedNegation :=
      .setOutputKeys (.setInputKeys .new rfl) rfl
    have haccepted := (honest_garbling_is_accepted_iff_its_sentinels_differ .block hnew hprepared
      (.random 7 _ hgarble) (by decide)).1 ⟨hin, hout⟩
    exact ⟨keys, c', .random 7 _ hgarble, haccepted⟩
  · obtain ⟨keys, c', hgarble, hin⟩ := garble_ambiguousNegation
    have hprepared : newNegation.Prepared (some (Bytes.zeros 32)) none ambiguousNegation :=
      .setInputKeys .new rfl
    have hrefused := (honest_garbling_is_accepted_iff_its_sentinels_differ .block hnew hprepared
      (.random 7 _ hgarble) (by decide)).2 fun h => hin h.1
    exact ⟨keys, c', .random 7 _ hgarble, hrefused.1⟩

end Layered

end Garbling
