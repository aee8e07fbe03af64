-- Pinned keys that do not tell the bits of a wire apart. If one key is
-- pinned for both bits, it opens both rows, and evaluation takes the first
-- of them: the wire is read as one fixed bit, and no error says so. Only
-- the audit refuses such tables.
import Garbling.Proofs.Layered.Seeding

namespace Garbling

/-! ## One key for both bits -/

namespace IdentityGate

variable {s : Scheme} {gate : UInt32} {table : Bytes}

/-- A key that both rows were written for evaluates to what is in the first one. -/
theorem compute_of_both_rows (law : s.Lawful) (hlen : table.length = tableSize s)
    {key output other : Bytes} (hfirst : HasRow s gate table false key output)
    (hsecond : HasRow s gate table true key other) :
    compute s gate table key output.length = .ok output := by
  obtain ⟨k, payload, sentinel, hk, hpayload, hsentinel, hpart, hsentinelPart⟩ := hfirst
  obtain ⟨k', _, sentinel', hk', _, hsentinel', _, hsentinelPart'⟩ := hsecond
  rw [hk, Except.ok.injEq] at hk'
  subst hk'
  have hrow0 : opens s k table 0 = .ok true := opens_own (law.under k) hsentinelPart hsentinel
  have hrow1 : opens s k table 1 = .ok true := opens_own (law.under k) hsentinelPart' hsentinel'
  have hopened : openedRows s k table = .ok (true, true) := by
    rw [openedRows, hrow0, ok_bind, hrow1]
    rfl
  have hread : payload? s k table 0 output.length = .ok (some output) :=
    payload?_own (law.under k) (law.length_le hpayload) hpart hpayload
  unfold compute
  simp only [hlen, ne_eq, not_true, if_false, hk, ok_bind, hopened, Bool.not_true, Bool.and_self,
    Bool.false_eq_true, if_true, hread]
  rfl

/-- In an honest table for one key, the first row has the output key for one of the bits. -/
theorem compute_of_one_key (law : s.Lawful) {zeroSecond : Bool} {key : Bytes}
    {outputs : Bytes × Bytes}
    (h : IdentityGate.table s gate zeroSecond (key, key) outputs = .ok table) :
    compute s gate table key (if zeroSecond then outputs.2 else outputs.1).length =
      .ok (if zeroSecond then outputs.2 else outputs.1) := by
  obtain ⟨hlen, h0, h1⟩ := hasRow_of_table h
  cases zeroSecond with
  | false => exact compute_of_both_rows law hlen h0 h1
  | true => exact compute_of_both_rows law hlen h1 h0

end IdentityGate

/-! ## Layers -/

namespace Layer

/-- The zeros, encrypted at the gate of a wire under its key for a bit. -/
def sentinelFor (s : Scheme) (keys : Keys) (wire : Nat) (bit : Bool) : Except Error Bytes :=
  IdentityGate.sentinel s (gateNumber wire) (KeyArray.keyFor keys.size keys.bytes wire bit)

/-- The two keys of the wire are the same. -/
def OneKeyAt (keys : Keys) (wire : Nat) : Prop :=
  KeyArray.keyFor keys.size keys.bytes wire false = KeyArray.keyFor keys.size keys.bytes wire true

instance (keys : Keys) (wire : Nat) : Decidable (OneKeyAt keys wire) :=
  inferInstanceAs (Decidable (_ = _))

variable {s : Scheme} {tables : Tables} {wires : Nat} {source target : Keys}

/-- At each gate of an honest layer, either there is one key, which leads to that for a fixed bit,
or the sentinels of the two keys differ, and each key leads to that for its own bit. -/
theorem Honest.read (law : s.Lawful) (h : Honest s tables wires source target) {wire : Nat}
    (hw : wire < wires) (hapart : sentinelFor s source wire false = sentinelFor s source wire true →
      OneKeyAt source wire) :
    ∃ fixed : Option Bool, (fixed.isSome = true ↔ OneKeyAt source wire) ∧
      ∃ table, tables.get? wire = some table ∧ ∀ bit,
        IdentityGate.compute s (gateNumber wire) table
          (KeyArray.keyFor source.size source.bytes wire bit) target.size =
          .ok (KeyArray.keyFor target.size target.bytes wire (fixed.getD bit)) := by
  obtain ⟨table, zeroSecond, htable, hmade⟩ := h.made wire hw
  obtain ⟨inputs, outputs, hinputs, houtputs, hmade⟩ := tableAt_eq_ok hmade
  rw [Keys.pairAt?_eq_some h.sourceLength hw, Option.some.injEq] at hinputs
  rw [Keys.pairAt?_eq_some h.targetLength hw, Option.some.injEq] at houtputs
  subst hinputs houtputs
  have hsize (bit : Bool) :
      (KeyArray.keyFor target.size target.bytes wire bit).length = target.size :=
    KeyArray.length_keyFor h.targetLength hw
  by_cases hone : OneKeyAt source wire
  · refine ⟨some zeroSecond, by simp [hone], table, htable, ?_⟩
    intro bit
    have hkey : KeyArray.keyFor source.size source.bytes wire bit =
        KeyArray.keyFor source.size source.bytes wire true := by
      cases bit with
      | false => exact hone
      | true => rfl
    rw [show KeyArray.keyFor source.size source.bytes wire false = _ from hone] at hmade
    have hcompute := IdentityGate.compute_of_one_key law hmade
    rw [hkey]
    cases zeroSecond with
    | false =>
      simp only [Bool.false_eq_true, if_false, hsize] at hcompute
      exact hcompute
    | true =>
      simp only [if_true, hsize] at hcompute
      exact hcompute
  · refine ⟨none, by simp [hone], table, htable, ?_⟩
    intro bit
    have hdiffer :=
      (IdentityGate.sentinelsDiffer_iff_of_table hmade).2 fun hsame => hone (hapart hsame)
    obtain ⟨h0, h1⟩ := IdentityGate.opens_of_table law hmade hdiffer
    have hlen := (IdentityGate.hasRow_of_table hmade).1
    simp only [hsize] at h0 h1
    cases bit with
    | false => exact IdentityGate.compute_of_opens hlen h0
    | true => exact IdentityGate.compute_of_opens hlen h1

/-- An honest layer leads each choice of keys to the keys for the same bits, except that a wire
with one key has a fixed bit. -/
theorem Honest.exists_read (law : s.Lawful) (h : Honest s tables wires source target)
    (hapart : ∀ wire < wires, sentinelFor s source wire false = sentinelFor s source wire true →
      OneKeyAt source wire) :
    ∃ fixed : Nat → Option Bool, (∀ wire, (fixed wire).isSome = true ↔ OneKeyAt source wire) ∧
      ∀ bit, compute s tables wires (source.choose wires bit) target.size =
        .ok (target.choose wires fun wire => (fixed wire).getD (bit wire)).bytes := by
  have hgates : ∀ wire, ∃ fixed : Option Bool, (fixed.isSome = true ↔ OneKeyAt source wire) ∧
      (wire < wires → ∃ table, tables.get? wire = some table ∧ ∀ bit,
        IdentityGate.compute s (gateNumber wire) table
          (KeyArray.keyFor source.size source.bytes wire bit) target.size =
          .ok (KeyArray.keyFor target.size target.bytes wire (fixed.getD bit))) := by
    intro wire
    by_cases hw : wire < wires
    · obtain ⟨fixed, hone, hread⟩ := h.read law hw (hapart wire hw)
      exact ⟨fixed, hone, fun _ => hread⟩
    · exact ⟨if OneKeyAt source wire then some false else none, by simp, fun hlt => absurd hlt hw⟩
  obtain ⟨fixed, hfixed⟩ := Classical.skolem.1 hgates
  refine ⟨fixed, fun wire => (hfixed wire).1, fun bit => ?_⟩
  refine compute_choose h.sourceLength fun wire hw => ?_
  obtain ⟨table, htable, hcompute⟩ := (hfixed wire).2 hw
  exact ⟨table, htable, hcompute (bit wire)⟩

/-- The audit refuses an honest layer in which the two keys of a wire have the same sentinel. -/
theorem Honest.not_sentinelsDiffer (h : Honest s tables wires source target) {wire : Nat}
    (hw : wire < wires) (hsame : sentinelFor s source wire false = sentinelFor s source wire true) :
    ∃ table ∈ tables.present, ¬ IdentityGate.SentinelsDiffer s table := by
  obtain ⟨table, zeroSecond, htable, hmade⟩ := h.made wire hw
  obtain ⟨inputs, outputs, hinputs, _, hmade⟩ := tableAt_eq_ok hmade
  rw [Keys.pairAt?_eq_some h.sourceLength hw, Option.some.injEq] at hinputs
  subst hinputs
  refine ⟨table, Tables.mem_present_iff.2 ⟨wire, htable⟩, ?_⟩
  rw [IdentityGate.sentinelsDiffer_iff_of_table hmade]
  exact fun hdiffer => hdiffer hsame

end Layer

/-! ## Circuits -/

/-- The input bits of the parties, but with a wire that has a fixed bit read as this one. -/
def Circuit.fixInputs (c : Circuit) (fixed : Nat → Option Bool) (inputs : List Bytes) :
    List (List Bool) :=
  (inputs.zip c.partyWires).map fun (bytes, wires) =>
    (bytes.zip wires).map fun (byte, wire) => (fixed wire).getD (byte != 0)

theorem Circuit.flatten_fixInputs {c : Circuit} (fixed : Nat → Option Bool) {inputs : List Bytes}
    {bit : Nat → Bool} (hinputs : inputs.map List.length = c.inputs)
    (hbit : inputs.flatten.map (· != 0) = (List.range c.inputCount).map bit) :
    (c.fixInputs fixed inputs).flatten =
      (List.range c.inputCount).map fun wire => (fixed wire).getD (bit wire) := by
  have hdealt : ((inputs.zip c.partyWires).flatMap fun part => part.1.zip part.2) =
      inputs.flatten.zipIdx := flatMap_zip_wireRuns hinputs
  have hflat : (c.fixInputs fixed inputs).flatten =
      inputs.flatten.zipIdx.map fun (byte, wire) => (fixed wire).getD (byte != 0) := by
    rw [← hdealt, List.map_flatMap, fixInputs, ← List.flatMap_def]
  rw [hflat, map_zipIdx_of_bits hbit fun b wire => (fixed wire).getD b]

/-- There is a run in which a wire with a fixed bit has this one, and every other wire the bit of
its party. The plain evaluation reads its outputs off it. -/
theorem Circuit.exists_fixed_run {c : Circuit} (hv : c.Valid) (fixed : Nat → Option Bool)
    {inputs : List Bytes} (h : inputs.map List.length = c.inputs) :
    ∃ bit run, inputs.flatten.map (· != 0) = (List.range c.inputCount).map bit ∧
      c.Carries run ∧ (∀ wire < c.inputCount, (fixed wire).getD (bit wire) = run wire) ∧
      c.eval (c.fixInputs fixed inputs) = some (c.outputs.map run) := by
  obtain ⟨bit, _, hbit, _⟩ := FreeXor.exists_run hv h
  have hflat := flatten_fixInputs fixed h hbit
  have hlen : (c.fixInputs fixed inputs).flatten.length = c.inputCount := by
    rw [hflat, List.length_map, List.length_range]
  obtain ⟨run, hrun, hseen⟩ := exists_carries hv hlen
  refine ⟨bit, run, hbit, hrun, ?_, eval_of_carries hv hrun hseen⟩
  intro wire hwire
  exact List.map_inj_left.1 (hflat.symm.trans hseen) wire (List.mem_range.2 hwire)

/-- Without fixed bits, the bits of the parties are read as they are. -/
theorem Circuit.eval_fixInputs {c : Circuit} (hv : c.Valid) {fixed : Nat → Option Bool}
    (hfixed : ∀ wire < c.inputCount, fixed wire = none) {inputs : List Bytes}
    (h : inputs.map List.length = c.inputs) :
    c.eval (c.fixInputs fixed inputs) = c.eval (FreeXor.inputBits inputs) := by
  obtain ⟨bit, hrun, hbit, heval⟩ := FreeXor.exists_run hv h
  rw [heval]
  refine eval_of_carries hv hrun ((flatten_fixInputs fixed h hbit).trans ?_)
  refine List.map_congr_left fun wire hmem => ?_
  rw [hfixed wire (List.mem_range.1 hmem), Option.getD_none]

namespace Layered

variable {P G : Type}

/-- After a garbling of a circuit with pinned input keys, the input side is an honest one from
these keys, which are reported, to those of the inner circuit, whatever the output side is. -/
theorem Garbles.honestInput [Generator P] [Generator G] {c made : Layered P G} {keys : KeyMaterial}
    (h : c.Garbles keys made) (hsound : c.Sound) {pins : Bytes}
    (hpins : c.input.pinned = some pins) :
    keys.inputKeys = pins ∧ made.garbled = true ∧ made.input.layered = true ∧
      ∃ innerKeys offset zero, made.inner.Honest innerKeys offset zero ∧
        made.input.Honest made.scheme made.inner.inputCount ⟨pins, made.scheme.cipherSize⟩
          ⟨made.inner.inputPairs offset zero, FreeXor.keySize⟩ := by
  have hlayered : c.input.layered = true := hsound.input.layered (by rw [hpins]; rfl)
  have hready := hsound.input.ready fun hkeyless => by
    rw [hkeyless.2] at hpins
    cases hpins
  have hlayered' : made.input.layered = true := by
    rw [h.follows.2.input]
    exact hlayered
  obtain ⟨innerKeys, inner, generator, hgarbles, hfinished⟩ := h.finished
  obtain ⟨hcircuit, _, offset, zero, hinner⟩ := hgarbles.honest
  rw [← FreeXor.inputCount_congr hcircuit] at hready
  have hside := hfinished.honest_input hready
  have hcore : made.inner = inner := hfinished.inner
  obtain ⟨hpinned, _, hreported, _⟩ := hfinished.pinned
  have hkeys : keys.inputKeys = pins := hreported pins (hpinned.trans hpins)
  rw [hinner.inputKeys, ← hcore, hkeys, inputKeySize_of_layered hlayered'] at hside
  rw [← hcore] at hinner
  exact ⟨hkeys, hfinished.garbled, hlayered', innerKeys, offset, zero, hinner, hside⟩

/-- If the input side leads some keys to those for the bits of a run, then whatever the output
side does, a verified translation can only give the output bits of the run. -/
theorem result_of_run {c : Layered P G} {innerKeys : KeyMaterial} {offset : Block}
    {zero : Nat → Block} (hg : c.garbled = true) (hinner : c.inner.Honest innerKeys offset zero)
    {keys : Bytes} (hlen : keys.length = c.inner.inputCount * c.inputKeySize) {bit : Nat → Bool}
    (hbit : c.inner.circuit.Carries bit)
    (hin : c.input.compute c.scheme c.inner.inputCount keys c.scheme.cipherSize FreeXor.keySize =
      .ok (KeyArray.choose FreeXor.keySize c.inner.inputCount (c.inner.inputPairs offset zero) bit))
    {output : LayeredOutput} (h : c.compute keys = .ok output) {pairs result : Bytes}
    (ht : c.verifiedTranslate output pairs = .ok result) :
    result = c.inner.circuit.outputs.map fun wire => (bit wire).toUInt8 := by
  rw [compute_eq hg hlen, hin, ok_bind, FreeXor.compute_choose hinner.encodes hinner.garbled hbit,
    ok_bind] at h
  obtain ⟨garbled, _, h⟩ := bind_eq_ok.1 h
  rw [pure_eq_ok] at h
  subst h
  obtain ⟨_, _, ht⟩ := bind_eq_ok.1 ht
  rw [translate, FreeXor.translate_choose hinner.signal hinner.translates, Except.ok.injEq] at ht
  exact ht.symm

/-- If some table of the input side has the same sentinel twice, no keys pass the audit. -/
theorem refused_of_sentinels {c : Layered P G} (hlayered : c.input.layered = true)
    {tables : Tables} (htables : c.input.tables = some tables) {table : Bytes}
    (hmem : table ∈ tables.present) (hsame : ¬ IdentityGate.SentinelsDiffer c.scheme table)
    (pairs : Bytes) : c.internalVerify pairs = none ∧ c.verify pairs = false ∧
      ∀ expected, c.verifyWithOutputs pairs expected = false := by
  rcases haudit : c.audit pairs with e | outputs
  · simp [internalVerify, verify, verifyWithOutputs, haudit, Except.toOption]
  · obtain ⟨_, hin, _⟩ := audit_eq_ok.1 haudit
    have hdiffer := Side.sentinelsDiffer_of_audit hin (by rw [htables, hlayered]; rfl)
    exact absurd (hdiffer tables htables table hmem) hsame

section

variable [Generator P] [Generator G]

/-- Keys are pinned on the input side, in any state of an instance, and a garbling succeeds. It
reports the pinned keys. If two different keys of a wire never have the same sentinel, then the
wires with one key for both bits are read as fixed bits, and all others as they are: a verified
translation gives the output bits for these bits of the input, whatever the output side is. If
the two keys of some wire have the same sentinel, the audit refuses the circuit for all keys. -/
theorem pinned_inputs_are_read_up_to_wires_with_one_key {circuit : Circuit} {scheme : Scheme}
    (hscheme : scheme.Shipped) {start made : Layered P G} (hstart : start.IsNew circuit scheme)
    {ops : List Operation} {pins : Bytes} (hpins : (start.run ops).input.pinned = some pins)
    {keys : KeyMaterial} (hgarbles : (start.run ops).Garbles keys made) :
    keys.inputKeys = pins ∧
    ((∀ wire < circuit.inputCount,
        Layer.sentinelFor scheme ⟨pins, scheme.cipherSize⟩ wire false =
          Layer.sentinelFor scheme ⟨pins, scheme.cipherSize⟩ wire true →
        Layer.OneKeyAt ⟨pins, scheme.cipherSize⟩ wire) →
      ∃ fixed : Nat → Option Bool,
        (∀ wire, (fixed wire).isSome = true ↔ Layer.OneKeyAt ⟨pins, scheme.cipherSize⟩ wire) ∧
        ∀ inputs : List Bytes, inputs.map List.length = circuit.inputs →
          ∃ input bits, made.garbledInputs inputs keys.inputKeys = .ok input ∧
            circuit.eval (circuit.fixInputs fixed inputs) = some bits ∧
            ((∀ wire < circuit.inputCount, ¬ Layer.OneKeyAt ⟨pins, scheme.cipherSize⟩ wire) →
              circuit.eval (FreeXor.inputBits inputs) = some bits) ∧
            ∀ output result, made.compute input = .ok output →
              made.verifiedTranslate output keys.outputKeys = .ok result →
              result = bits.map Bool.toUInt8) ∧
    ((∃ wire < circuit.inputCount,
        Layer.sentinelFor scheme ⟨pins, scheme.cipherSize⟩ wire false =
          Layer.sentinelFor scheme ⟨pins, scheme.cipherSize⟩ wire true) →
      ∀ pairs, made.internalVerify pairs = none ∧ made.verify pairs = false ∧
        ∀ expected, made.verifyWithOutputs pairs expected = false) := by
  obtain ⟨hkeys, hg, hlayered, innerKeys, offset, zero, hinner, hside⟩ :=
    hgarbles.honestInput (hstart.sound.run ops) hpins
  obtain ⟨hcircuit, _, hsch, _⟩ := hstart.run ops
  have hcircuit' : made.inner.circuit = circuit := hgarbles.follows.1.circuit.trans hcircuit
  have hsch' : made.scheme = scheme := hgarbles.follows.1.scheme.trans hsch
  have law : scheme.Lawful := hscheme.lawful
  subst hcircuit' hsch'
  rcases hside with ⟨hnone, _⟩ | ⟨tables, _, htables, _, hlayer⟩
  · rw [hlayered] at hnone
    cases hnone
  have hpairs : keys.inputKeys.length = 2 * made.inner.inputCount * made.inputKeySize := by
    rw [hkeys, inputKeySize_of_layered hlayered]
    exact hlayer.sourceLength
  refine ⟨hkeys, ?_, ?_⟩
  · intro hapart
    obtain ⟨fixed, hfixed, hread⟩ := hlayer.exists_read law hapart
    refine ⟨fixed, hfixed, ?_⟩
    intro inputs hinputs
    obtain ⟨bit, run, hbits, hrun, hrunBits, heval⟩ :=
      Circuit.exists_fixed_run made.inner.valid fixed hinputs
    have hsame : ∀ wire < made.inner.inputCount, (fixed wire).getD (bit wire) = run wire := hrunBits
    have hin : made.input.compute made.scheme made.inner.inputCount
        (KeyArray.choose made.inputKeySize made.inner.inputCount keys.inputKeys bit)
        made.scheme.cipherSize FreeXor.keySize =
        .ok (KeyArray.choose FreeXor.keySize made.inner.inputCount
          (made.inner.inputPairs offset zero) run) := by
      rw [← KeyArray.choose_congr hsame, hkeys, inputKeySize_of_layered hlayered, Side.compute,
        Side.active_eq_ok_some.2 ⟨hlayered, htables⟩]
      exact hread bit
    refine ⟨_, made.inner.circuit.outputs.map run, garbledInputs_eq_ok hinputs hbits hpairs, heval,
      ?_, ?_⟩
    · intro hdistinct
      rw [← Circuit.eval_fixInputs made.inner.valid (fun wire hwire => ?_) hinputs, heval]
      rw [← Option.not_isSome_iff_eq_none]
      exact fun hsome => hdistinct wire hwire ((hfixed wire).1 hsome)
    · intro output result hcompute htranslate
      rw [result_of_run hg hinner (KeyArray.length_choose hpairs bit) hrun hin hcompute htranslate,
        List.map_map]
      rfl
  · rintro ⟨wire, hwire, hsentinels⟩
    obtain ⟨table, htable, hcoincide⟩ := hlayer.not_sentinelsDiffer hwire hsentinels
    exact refused_of_sentinels hlayered htables htable hcoincide

end

theorem pinned_negation_of_one_is_zero_and_one_key_is_refused :
    (∃ keys made,
      (newNegation.run [.setInputKeys negationKeys,
        .setOutputKeys negationKeys]).Garbles keys made ∧
      ∃ input, made.garbledInputs [[1]] keys.inputKeys = .ok input ∧
        ∀ output result, made.compute input = .ok output →
          made.verifiedTranslate output keys.outputKeys = .ok result → result = [0]) ∧
    ∃ keys made, (newNegation.run [.setInputKeys (Bytes.zeros 32)]).Garbles keys made ∧
      ∀ pairs, made.verify pairs = false := by
  constructor
  · obtain ⟨keys, made, hgarble, _, _⟩ := garble_pinnedNegation
    let pins : List Operation := [.setInputKeys negationKeys, .setOutputKeys negationKeys]
    have hrun : newNegation.run pins = pinnedNegation := rfl
    have hgarbles : (newNegation.run pins).Garbles keys made := .random 7 _ hgarble
    obtain ⟨_, hread, _⟩ := pinned_inputs_are_read_up_to_wires_with_one_key .block
      isNew_newNegation (by rw [hrun]; rfl) hgarbles
    have hkeys : ∀ wire < 1, ¬ Layer.OneKeyAt ⟨negationKeys, 16⟩ wire := by decide
    have hsentinels : ∀ wire < 1,
        (Layer.sentinelFor .block ⟨negationKeys, 16⟩ wire false).toOption ≠
          (Layer.sentinelFor .block ⟨negationKeys, 16⟩ wire true).toOption := by
      decide +kernel
    obtain ⟨_, _, hinputs⟩ := hread fun wire hwire hsame =>
      absurd (congrArg Except.toOption hsame) (hsentinels wire hwire)
    obtain ⟨input, bits, hinput, _, hplain, hresult⟩ := hinputs [[1]] rfl
    have hbits : some bits = some [false] := (hplain hkeys).symm
    cases hbits
    exact ⟨keys, made, hgarbles, input, hinput, hresult⟩
  · obtain ⟨keys, made, hgarble, _⟩ := garble_ambiguousNegation
    have hgarbles : (newNegation.run [.setInputKeys (Bytes.zeros 32)]).Garbles keys made :=
      .random 7 _ hgarble
    obtain ⟨_, _, hrefused⟩ := pinned_inputs_are_read_up_to_wires_with_one_key .block
      isNew_newNegation rfl hgarbles
    have hkey : Layer.OneKeyAt ⟨Bytes.zeros 32, 16⟩ 0 := by decide
    refine ⟨keys, made, hgarbles, fun pairs => (hrefused ⟨0, by decide, ?_⟩ pairs).2.1⟩
    exact congrArg (IdentityGate.sentinel .block _) hkey

/-- One key is pinned for both bits of the input of a negation. Everything succeeds, and the
negation of 1 is 1. -/
theorem negation_with_one_key_gives_a_wrong_bit :
    newNegation.setInputKeys (Bytes.zeros 32) = .ok ambiguousNegation ∧
    ∃ keys made input output,
      ambiguousNegation.garbleSeeded (Bytes.zeros 16) = (.ok keys, made) ∧
      made.garbledInputs [[1]] keys.inputKeys = .ok input ∧ made.compute input = .ok output ∧
      made.verifiedTranslate output keys.outputKeys = .ok [1] ∧
      made.inner.circuit.eval (FreeXor.inputBits [[1]]) = some [false] := by
  have hsteps : Except.toOption (do
      let keys ← (ambiguousNegation.garbleSeeded (Bytes.zeros 16)).1
      let made := (ambiguousNegation.garbleSeeded (Bytes.zeros 16)).2
      let input ← made.garbledInputs [[1]] keys.inputKeys
      let output ← made.compute input
      made.verifiedTranslate output keys.outputKeys) = some [1] := by
    decide +kernel
  rw [toOption_eq_some] at hsteps
  have hcircuit := (supplies_garbleSeeded ambiguousNegation (Bytes.zeros 16)).follows.circuit
  rcases hgarble : ambiguousNegation.garbleSeeded (Bytes.zeros 16) with ⟨e | keys, made⟩
  · rw [hgarble] at hsteps
    cases hsteps
  rw [hgarble] at hcircuit
  simp only [hgarble, ok_bind] at hsteps
  obtain ⟨input, hinput, hsteps⟩ := bind_eq_ok.1 hsteps
  obtain ⟨output, houtput, hresult⟩ := bind_eq_ok.1 hsteps
  refine ⟨rfl, keys, made, input, output, rfl, hinput, houtput, hresult, ?_⟩
  rw [hcircuit]
  rfl

end Layered

end Garbling
