-- A circuit with layers that nothing has supplied with tables. Attempts
-- that fail may leave tables inside it and on its input side, but then a
-- side has a layer without tables, and the audit refuses like evaluation.
-- Without any layer the audit is that of the inner circuit, which passes
-- for some keys if there are no gates.
import Garbling.Proofs.FreeXor.Ungarbled
import Garbling.Proofs.Layered.Binding
import Garbling.Proofs.Layered.FailedChanges

namespace Garbling

/-- Whether a generator takes a seed depends on the length of the seed alone. -/
def Generator.SeedsByLength (P : Type) [Generator P] : Prop :=
  ∀ {p keyed : P} {seed : Bytes}, rekey p seed = .ok keyed →
    ∀ (p' : P) (seed' : Bytes), seed'.length = seed.length → ∃ keyed', rekey p' seed' = .ok keyed'

theorem StreamGenerator.seedsByLength (kind : StreamKind) :
    Generator.SeedsByLength (StreamGenerator kind) := by
  intro p keyed seed h p' seed' hlen
  rw [StreamGenerator.rekey_eq] at h ⊢
  rw [hlen]
  split at h
  · exact ⟨_, if_pos ‹_›⟩
  · cases h

namespace Layered

variable {P G : Type}

/-! ## What failed attempts leave -/

/-- Tables are only refused before anything is changed: no side has more wires than identity
gates have numbers, and a seed that keys a generator once does so again. -/
structure RefusesEarly (P : Type) [Generator P] (circuit : Circuit) : Prop where
  inputs : circuit.inputCount ≤ 0x100000000
  outputs : circuit.outputs.length ≤ 0x100000000
  seeds : Generator.SeedsByLength P

/-- The output side has no tables, and the input side only if the output side has a layer. Without
gates there are no slots inside. -/
structure Untabled (c : Layered P G) (circuit : Circuit) : Prop where
  same : c.inner.circuit = circuit
  slots : circuit.gates = [] → c.inner.tables.size = 0
  input : c.input.tables.isSome = true → c.output.layered = true
  output : c.output.tables = none

/-- There are no tables outside that would do, and none inside unless a side has a layer. -/
structure Unsupplied [Generator P] (c : Layered P G) (circuit : Circuit) : Prop
    extends c.Untabled circuit where
  inner : RefusesEarly P circuit →
    c.inner.tables = {} ∨ c.input.layered = true ∨ c.output.layered = true

theorem Untabled.withInner {c : Layered P G} {circuit : Circuit} (h : c.Untabled circuit)
    {inner : FreeXor G} (generator : P) (hcircuit : inner.circuit = c.inner.circuit)
    (hslots : inner.tables.size = c.inner.circuit.gates.length) :
    ({ c with generator, inner } : Layered P G).Untabled circuit := by
  refine ⟨hcircuit.trans h.same, fun hgates => ?_, h.input, h.output⟩
  rw [hslots, h.same, hgates]
  rfl

section

variable [Generator P]

/-- Tables for a side can only fail if there is a layer for them. -/
theorem layered_of_layerTables_error {side : Side} {order order' : RowOrder P}
    {garble : Bytes → Except Error Tables × RowOrder P} {e : Error}
    (h : layerTables order side.keysToBridge garble = (.error e, order')) :
    side.layered = true := by
  unfold layerTables Side.keysToBridge at h
  cases hlayered : side.layered with
  | true => rfl
  | false =>
    rw [hlayered] at h
    cases h

/-- Where the tables of the layers cannot be made, there is a layer. -/
theorem Untabled.finish_error {c : Layered P G} {circuit : Circuit} (h : c.Untabled circuit)
    {keys : KeyMaterial} {order : RowOrder P} {e : Error}
    (he : (c.finish keys order).1 = .error e) :
    (c.finish keys order).2.Unsupplied circuit := by
  unfold finish at he ⊢
  rcases hin : c.inputTables keys order with ⟨e' | tables, next⟩
  · have hlayered := layered_of_layerTables_error hin
    exact ⟨⟨h.same, h.slots, h.input, h.output⟩, fun _ => .inr (.inl hlayered)⟩
  simp only [hin, outputTables_input] at he ⊢
  rcases hout : c.outputTables keys next with ⟨e' | tables', last⟩
  · have hlayered := layered_of_layerTables_error hout
    exact ⟨⟨h.same, h.slots, fun _ => hlayered, h.output⟩, fun _ => .inr (.inr hlayered)⟩
  · rw [hout] at he
    cases he

variable {c : Layered P G} {circuit : Circuit} {e : Error}

theorem Unsupplied.garble_error (h : c.Unsupplied circuit) {key : Block} {rows : Nat → Bool}
    (he : (c.garble key rows).1 = .error e) : (c.garble key rows).2.Unsupplied circuit := by
  obtain ⟨keys, inner, hinner⟩ := FreeXor.exists_garble c.inner key
  obtain ⟨hcircuit, _, _, _, honest⟩ := FreeXor.honest_of_garble hinner
  unfold garble at he ⊢
  rw [hinner] at he ⊢
  refine (h.toUntabled.withInner c.generator hcircuit ?_).finish_error he
  rw [honest.slots, hcircuit]

/-- The two seeds that come from a seed have its length. -/
theorem Unsupplied.garbleSeeded_error [Generator G] (h : c.Unsupplied circuit) {seed : Bytes}
    (he : (c.garbleSeeded seed).1 = .error e) : (c.garbleSeeded seed).2.Unsupplied circuit := by
  unfold garbleSeeded at he ⊢
  split
  · exact h
  rename_i keyed hkey
  split
  · exact ⟨⟨h.same, h.slots, h.input, h.output⟩, h.inner⟩
  rename_i innerSeed rowSeed generator hdraw
  rcases hinner : c.inner.garbleSeeded innerSeed with ⟨e' | keys, inner⟩
  · obtain ⟨left, hleft⟩ := FreeXor.garbleSeeded_error (congrArg Prod.fst hinner)
    rw [hinner] at hleft
    dsimp only at hleft ⊢
    subst hleft
    exact ⟨⟨h.same, h.slots, h.input, h.output⟩, h.inner⟩
  obtain ⟨hcircuit, _, _, _, honest⟩ := FreeXor.honest_of_garbleSeeded hinner
  have hslots : inner.tables.size = c.inner.circuit.gates.length := by
    rw [honest.slots, hcircuit]
  simp only [hkey, hdraw, hinner] at he ⊢
  split
  · rename_i cause hfail
    refine ⟨h.toUntabled.withInner generator hcircuit hslots, fun hearly => ?_⟩
    obtain ⟨seeds, hbytes, _, rfl⟩ := drawSeeds_eq_ok.1 hdraw
    have hseeds := Generator.length_of_draw keyed (2 * seed.length) seeds (congrArg Prod.fst hbytes)
    have hlen : (seeds.drop seed.length).length = seed.length := by
      rw [List.length_drop, hseeds]
      omega
    obtain ⟨again, hagain⟩ := hearly.seeds hkey generator _ hlen
    rw [hfail] at hagain
    cases hagain
  · rename_i rekeyed hrekey
    rw [hrekey] at he
    exact (h.toUntabled.withInner rekeyed hcircuit hslots).finish_error he

omit [Generator P] in
/-- Tables that are refused late stay inside. -/
theorem Untabled.setTables_error (h : c.Untabled circuit) {tables : LayeredTables}
    (he : (c.setTables tables).1 = .error e) : (c.setTables tables).2.Untabled circuit := by
  unfold Layered.setTables at he ⊢
  split
  · exact h
  split
  · exact h
  split
  · exact h
  rename_i hfits hfits' _ inner hinner
  have htables : inner.circuit = c.inner.circuit ∧
      inner.tables.size = c.inner.circuit.gates.length := by
    unfold FreeXor.setTables at hinner
    split at hinner
    · cases hinner
      exact ⟨rfl, ‹_›⟩
    · cases hinner
  have hmade := h.withInner c.generator htables.1 htables.2
  split
  · exact hmade
  rename_i input hinput
  have hsame : input.tables = c.input.tables := by
    rw [(Side.expect_eq_ok.1 hinput).2]
  split
  · exact ⟨hmade.same, hmade.slots, by rw [hsame]; exact h.input, h.output⟩
  · rename_i output houtput
    rw [if_neg hfits, if_neg hfits'] at he
    simp only [hinner, hinput, houtput] at he
    cases he

theorem Unsupplied.setTables_error (h : c.Unsupplied circuit) {tables : LayeredTables}
    (he : (c.setTables tables).1 = .error e) : (c.setTables tables).2.Unsupplied circuit := by
  refine ⟨h.toUntabled.setTables_error he, fun hearly => ?_⟩
  have hcircuit := h.same
  subst hcircuit
  rw [Layered.setTables_error hearly.inputs hearly.outputs he]
  exact h.inner hearly

/-! ## Pinned keys -/

omit [Generator P] in
theorem of_pin {side side' : Side} {wires size : Nat} {keys : Bytes}
    (h : side.pin wires size keys = .ok side') :
    side' = { side with layered := true, pinned := some keys } := by
  unfold Side.pin at h
  obtain ⟨_, _, h⟩ := bind_eq_ok.1 h
  obtain ⟨_, _, h⟩ := bind_eq_ok.1 h
  exact (pure_eq_ok.1 h).symm

theorem Unsupplied.setInputKeys (h : c.Unsupplied circuit) {c' : Layered P G} {keys : Bytes}
    (hset : c.setInputKeys keys = .ok c') : c'.Unsupplied circuit := by
  obtain ⟨_, input, hpin, rfl⟩ := of_setInputKeys hset
  have hinput := of_pin hpin
  subst hinput
  exact ⟨⟨h.same, h.slots, h.input, h.output⟩, fun _ => .inr (.inl rfl)⟩

theorem Unsupplied.setOutputKeys (h : c.Unsupplied circuit) {c' : Layered P G} {keys : Bytes}
    (hset : c.setOutputKeys keys = .ok c') : c'.Unsupplied circuit := by
  obtain ⟨_, output, hpin, rfl⟩ := of_setOutputKeys hset
  have houtput := of_pin hpin
  subst houtput
  exact ⟨⟨h.same, h.slots, fun _ => rfl, h.output⟩, fun _ => .inr (.inr rfl)⟩

end

/-! ## Operations in any order -/

section

variable [Generator P] [Generator G] {c : Layered P G} {circuit : Circuit} {e : Error}

/-- Keys that are refused late leave those before them pinned. -/
theorem Unsupplied.garblePinned_error (h : c.Unsupplied circuit) {seed : Bytes}
    {inputKeys outputKeys : Option Bytes}
    (he : (c.garblePinned seed inputKeys outputKeys).1 = .error e) :
    (c.garblePinned seed inputKeys outputKeys).2.Unsupplied circuit := by
  unfold garblePinned at he ⊢
  split
  · exact h
  rename_i c1 hinput
  have h1 : c1.Unsupplied circuit :=
    of_elim (·.Unsupplied circuit) h (fun _ _ => h.setInputKeys) hinput
  simp only [hinput] at he
  split
  · exact h1
  rename_i c2 houtput
  have h2 : c2.Unsupplied circuit :=
    of_elim (·.Unsupplied circuit) h1 (fun _ _ => h1.setOutputKeys) houtput
  simp only [houtput] at he
  exact h2.garbleSeeded_error he

theorem Unsupplied.verifyHashed_error (h : c.Unsupplied circuit) {seed : Bytes}
    {inputKeys outputKeys : Option Bytes} {d : Digest} {digest : Bytes}
    (he : (c.verifyHashed seed inputKeys outputKeys d digest).1 = .error e) :
    (c.verifyHashed seed inputKeys outputKeys d digest).2.Unsupplied circuit := by
  unfold verifyHashed at he ⊢
  split
  · exact h
  rename_i hg
  rw [if_neg hg] at he
  split
  · rename_i hfail
    have hleft := h.garblePinned_error (congrArg Prod.fst hfail)
    rwa [hfail] at hleft
  · rename_i hok
    rw [hok] at he
    cases he

/-- A failed attempt, or an operation that supplies nothing, leaves the circuit unsupplied. -/
theorem Unsupplied.perform (h : c.Unsupplied circuit) {op : Operation}
    (hno : ¬ (op.suppliesTables = true ∧ (c.perform op).1 = .ok ())) :
    (c.perform op).2.Unsupplied circuit := by
  have htry : ∀ {α : Type} {outcome : Except Error α × Layered P G},
      ¬ (succeeded outcome).1 = .ok () → ∃ e, outcome.1 = .error e := by
    rintro α ⟨e | a, c'⟩ hfail
    · exact ⟨e, rfl⟩
    · exact absurd rfl hfail
  cases op with
  | setInputKeys keys =>
    exact of_orUnchanged (·.Unsupplied circuit) h fun _ => h.setInputKeys
  | setOutputKeys keys =>
    exact of_orUnchanged (·.Unsupplied circuit) h fun _ => h.setOutputKeys
  | setTranslation translation => exact ⟨⟨h.same, h.slots, h.input, h.output⟩, h.inner⟩
  | garble key rows =>
    obtain ⟨e, he⟩ := htry fun hok => hno ⟨rfl, hok⟩
    exact h.garble_error he
  | garbleSeeded seed =>
    obtain ⟨e, he⟩ := htry fun hok => hno ⟨rfl, hok⟩
    exact h.garbleSeeded_error he
  | setTables tables =>
    cases hset : (c.setTables tables).1 with
    | ok u => exact absurd ⟨rfl, hset⟩ hno
    | error e => exact h.setTables_error hset
  | verifyHashed seed inputKeys outputKeys d digest =>
    obtain ⟨e, he⟩ := htry fun hok => hno ⟨rfl, hok⟩
    exact h.verifyHashed_error he

theorem Unsupplied.run (h : c.Unsupplied circuit) {ops : List Operation}
    (hno : ¬ c.Supplied ops) : (c.run ops).Unsupplied circuit := by
  induction ops generalizing c with
  | nil => exact h
  | cons op ops ih =>
    rw [supplied_cons, not_or] at hno
    exact ih (h.perform hno.1) hno.2

omit [Generator G] in
theorem unsupplied_of_ofInner {inner : FreeXor G} {scheme : Scheme} {generator : P}
    (hinner : inner.Ungarbled circuit) (hstart : ofInner inner scheme generator = .ok c) :
    c.Unsupplied circuit := by
  obtain ⟨_, rfl⟩ := ofInner_eq_ok.1 hstart
  refine ⟨⟨hinner.circuit, fun _ => ?_, fun h => ?_, rfl⟩, fun _ => .inl hinner.tables⟩
  · rw [hinner.tables]
    rfl
  · cases h

end

/-! ## What the audit makes of it -/

/-- No side has a layer, and the inner circuit has an input wire but no gate. -/
structure Gateless (c : Layered P G) (pairs : Bytes) (offset : Block) (zero : Nat → Block) :
    Prop where
  input : c.input.layered = false
  output : c.output.layered = false
  inner : c.inner.Gateless pairs offset zero

section

variable [Generator P] {c : Layered P G} {circuit : Circuit} {pairs : Bytes}

/-- A layer lacks its tables, or those inside lack a slot for each gate. -/
theorem Unsupplied.audit_eq_ok (h : c.Unsupplied circuit)
    (hearly : circuit.gates ≠ [] → RefusesEarly P circuit) {outputs : AuditedOutputs} :
    c.audit pairs = .ok outputs ↔ ∃ offset zero, c.Gateless pairs offset zero ∧
      outputs = ⟨c.inner.outputPairs offset zero, c.inner.outputPairs offset zero⟩ := by
  have hsize : c.input.layered = false → c.output.layered = false → c.inner.tables.size = 0 := by
    intro hin hout
    by_cases hgates : circuit.gates = []
    · exact h.slots hgates
    · rcases h.inner (hearly hgates) with htables | hlayered | hlayered
      · rw [htables]
        rfl
      · rw [hin] at hlayered
        cases hlayered
      · rw [hout] at hlayered
        cases hlayered
  rw [Layered.audit_eq_ok]
  constructor
  · rintro ⟨innerPairs, hinput, hinner, houtput⟩
    have hout : c.output.layered = false := by
      refine Bool.eq_false_iff.2 fun hlayered => ?_
      unfold Side.audit Side.active at houtput
      rw [hlayered, h.output] at houtput
      cases houtput
    have hin : c.input.layered = false := by
      refine Bool.eq_false_iff.2 fun hlayered => ?_
      have htables : c.input.tables = none := by
        rw [← Option.not_isSome_iff_eq_none]
        intro hsome
        rw [h.input hsome] at hout
        cases hout
      unfold Side.audit Side.active at hinput
      rw [hlayered, htables] at hinput
      cases hinput
    unfold Side.audit Side.active at hinput houtput
    rw [hin] at hinput
    rw [hout] at houtput
    cases hinput
    obtain ⟨offset, zero, hgateless, houtputs⟩ :=
      (FreeXor.audit_eq_ok_of_no_slots (hsize hin hout)).1 hinner
    refine ⟨offset, zero, ⟨hin, hout, hgateless⟩, ?_⟩
    obtain ⟨inner, outer⟩ := outputs
    cases houtput
    cases houtputs
    rfl
  · rintro ⟨offset, zero, hgateless, rfl⟩
    refine ⟨pairs, ?_, ?_, ?_⟩
    · unfold Side.audit Side.active
      rw [hgateless.input]
      rfl
    · exact (FreeXor.audit_eq_ok_of_no_slots (hsize hgateless.input hgateless.output)).2
        ⟨offset, zero, hgateless.inner, rfl⟩
    · unfold Side.audit Side.active
      rw [hgateless.output]
      rfl

theorem Unsupplied.internalVerify_eq_some (h : c.Unsupplied circuit)
    (hearly : circuit.gates ≠ [] → RefusesEarly P circuit) {outputs : Bytes} :
    c.internalVerify pairs = some outputs ↔ ∃ offset zero, c.Gateless pairs offset zero ∧
      outputs = c.inner.outputPairs offset zero := by
  rw [Layered.internalVerify_eq_some]
  constructor
  · rintro ⟨inner, haudit⟩
    obtain ⟨offset, zero, hgateless, houtputs⟩ := (h.audit_eq_ok hearly).1 haudit
    exact ⟨offset, zero, hgateless, congrArg AuditedOutputs.outer houtputs⟩
  · rintro ⟨offset, zero, hgateless, rfl⟩
    exact ⟨_, (h.audit_eq_ok hearly).2 ⟨offset, zero, hgateless, rfl⟩⟩

/-- Without a layer no keys are pinned that the outputs could differ from. -/
theorem Unsupplied.verify_eq_true (h : c.Unsupplied circuit) (hsound : c.Sound)
    (hearly : circuit.gates ≠ [] → RefusesEarly P circuit) :
    c.verify pairs = true ↔ ∃ offset zero, c.Gateless pairs offset zero ∧
      c.inner.Translates zero := by
  rw [Layered.verify_eq_true]
  constructor
  · rintro ⟨outputs, haudit, _, ht⟩
    obtain ⟨offset, zero, hgateless, rfl⟩ := (h.audit_eq_ok hearly).1 haudit
    exact ⟨offset, zero, hgateless, FreeXor.translates_of_verifyTranslation ht⟩
  · rintro ⟨offset, zero, hgateless, ht⟩
    refine ⟨_, (h.audit_eq_ok hearly).2 ⟨offset, zero, hgateless, rfl⟩, ?_,
      FreeXor.verifyTranslation_of_translates hgateless.inner.signal ht⟩
    intro pinned hpinned
    have hlayered := hsound.output.layered (Option.isSome_of_mem hpinned)
    rw [hgateless.output] at hlayered
    cases hlayered

end

section

variable [Generator P] [Generator G]

/-- As long as no tables have been made or taken over, evaluation says that there are none. The
audit accepts keys if and only if there is an input wire but no gate, those with a common offset
for the input wires, and then only the translation table is left to check. With layers it refuses
if a side has one. If there are gates, this supposes that tables are refused before anything is
changed. -/
theorem ungarbled_circuits_pass_audits_only_without_gates {circuit : Circuit} {generator : G}
    {fresh : FreeXor G} (hfresh : FreeXor.ofCircuit circuit generator = .ok fresh) :
    (∀ requests (c : FreeXor G), Session.after FreeXor.respond fresh requests = c →
      ¬ Session.Granted FreeXor.respond Garbling.Request.suppliesTables fresh requests →
      (∀ keys, c.compute keys = .error .notGarbled) ∧
      (∀ pairs outputs, c.internalVerify pairs = some outputs ↔
        ∃ offset zero, c.Gateless pairs offset zero ∧ outputs = c.outputPairs offset zero) ∧
      (∀ pairs, c.verify pairs = true ↔
        ∃ offset zero, c.Gateless pairs offset zero ∧ c.Translates zero) ∧
      ((∃ pairs outputs, c.internalVerify pairs = some outputs) ↔
        circuit.gates = [] ∧ 0 < circuit.inputCount)) ∧
    ∀ scheme (p : P) (start : Layered P G), ofInner fresh scheme p = .ok start →
      ∀ ops c, start.run ops = c → ¬ start.Supplied ops →
        (∀ keys, c.compute keys = .error .notGarbled) ∧
        ((circuit.gates ≠ [] → RefusesEarly P circuit) →
          (∀ pairs outputs, c.internalVerify pairs = some outputs ↔ ∃ offset zero,
            c.Gateless pairs offset zero ∧ outputs = c.inner.outputPairs offset zero) ∧
          (∀ pairs, c.verify pairs = true ↔
            ∃ offset zero, c.Gateless pairs offset zero ∧ c.inner.Translates zero)) := by
  have hnew := FreeXor.ungarbled_of_ofCircuit hfresh
  constructor
  · rintro requests c rfl hno
    have h := hnew.after hno
    generalize Session.after FreeXor.respond fresh requests = c at h
    have hslots : c.tables.size = 0 := by
      rw [h.tables]
      rfl
    refine ⟨FreeXor.compute_of_not_garbled h.garbled,
      fun _ _ => FreeXor.internalVerify_of_no_slots hslots,
      fun _ => FreeXor.verify_of_no_slots hslots, ?_⟩
    rw [FreeXor.exists_internalVerify_iff hslots, FreeXor.inputCount, h.circuit]
  · rintro scheme p start hstart ops c rfl hno
    have h := (unsupplied_of_ofInner hnew hstart).run hno
    have hsound := (sound_new hstart).run ops
    have hgarbled : start.garbled = false := by
      rw [(ofInner_eq_ok.1 hstart).2]
    have hkeeps := run_keeps (c := start) (fun hg => by rw [hgarbled] at hg; cases hg) ops
    refine ⟨fun keys => ?_, fun hearly => ⟨fun _ _ => h.internalVerify_eq_some hearly,
      fun _ => h.verify_eq_true hsound hearly⟩⟩
    have hnone : (start.run ops).garbled = false := by
      refine Bool.eq_false_iff.2 fun hg => ?_
      rcases hkeeps.2.2.1 hg with hg | hsupplied
      · rw [hgarbled] at hg
        cases hg
      · exact hno hsupplied
    unfold compute
    rw [hnone]
    rfl

end

/-- Tables without a slot for the gate are refused, and so are all keys after that. -/
theorem ungarbled_negation_passes_no_audit :
    let c := newNegation.run [.setTables {}, .setTranslation [0]]
    (∀ keys, c.compute keys = .error .notGarbled) ∧
      ∀ pairs, c.internalVerify pairs = none ∧ c.verify pairs = false := by
  intro c
  have hno : ¬ newNegation.Supplied [.setTables {}, .setTranslation [0]] := fun hsupplied => by
    cases (isNew_newNegation.run _).2.2.2.2 hsupplied
  have hearly : RefusesEarly (StreamGenerator .aesCounter) newNegation.inner.circuit :=
    ⟨by decide, by decide, StreamGenerator.seedsByLength _⟩
  obtain ⟨hcompute, haudit⟩ := (ungarbled_circuits_pass_audits_only_without_gates
    (show FreeXor.ofCircuit newNegation.inner.circuit {} = .ok newNegation.inner from rfl)).2 .block
    {} newNegation rfl _ c rfl hno
  obtain ⟨hinternal, hverify⟩ := haudit fun _ => hearly
  refine ⟨hcompute, fun pairs => ⟨?_, ?_⟩⟩
  · refine Option.eq_none_iff_forall_ne_some.2 fun outputs h => ?_
    obtain ⟨_, _, hgateless, _⟩ := (hinternal pairs outputs).1 h
    cases hgateless.inner.gates
  · refine Bool.eq_false_iff.2 fun h => ?_
    obtain ⟨_, _, hgateless, _⟩ := (hverify pairs).1 h
    cases hgateless.inner.gates

/-- A wire has only been given a translation table. Evaluation says that it is not garbled, but
the audit accepts the blocks 0 and 1 as its keys, and so does the check of both. -/
theorem ungarbled_wire_passes_its_audit :
    let requests : List (Garbling.Request Bytes Tables) := [.setTranslation [0]]
    let c := Session.after FreeXor.respond newWire.inner requests
    FreeXor.ofCircuit ⟨[1], [], [0]⟩ {} = .ok newWire.inner ∧
    ¬ Session.Granted FreeXor.respond Garbling.Request.suppliesTables newWire.inner requests ∧
    c.compute (Bytes.zeros 16) = .error .notGarbled ∧
    c.internalVerify bareWireKeys = some bareWireKeys ∧ c.verify bareWireKeys = true := by
  refine ⟨rfl, ?_, rfl, by decide +kernel, by decide +kernel⟩
  rintro ⟨before, request, later, h, hsupplies, _⟩
  cases before with
  | nil =>
    cases h
    cases hsupplies
  | cons first before => cases before <;> cases h

end Layered

end Garbling
