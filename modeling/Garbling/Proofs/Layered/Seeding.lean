-- Garbling from a seed, in two states of one circuit. Whatever was garbled,
-- pinned or received before, the inner garbling is the same in both, and
-- with the same pinned keys everything is.
import Garbling.Proofs.Layered.Consistency
import Garbling.Proofs.Layered.DeferredAudit
import Garbling.Proofs.Restarting

namespace Garbling

/-! ## Layers -/

namespace Layer

variable {P : Type} [Generator P] {s : Scheme} {source target : Keys}

/-- Row orders that are alike give the same tables, and what is left of them is alike again. -/
theorem tablesAt_alike {order order' rest : RowOrder P} (h : order.Alike order')
    {positions : List Nat} {tables : Except Error (List Bytes)}
    (hmade : tablesAt s source target order positions = (tables, rest)) :
    ∃ rest', tablesAt s source target order' positions = (tables, rest') ∧ rest.Alike rest' := by
  induction positions generalizing order order' rest tables with
  | nil =>
    cases hmade
    exact ⟨order', rfl, h⟩
  | cons position positions ih =>
    rcases hnext : order.next with ⟨zeroSecond, next⟩
    obtain ⟨next', hnext', hleft⟩ := h.next hnext
    unfold tablesAt at hmade ⊢
    simp only [hnext, hnext'] at hmade ⊢
    cases zeroSecond with
    | error e =>
      cases hmade
      exact ⟨next', rfl, hleft⟩
    | ok zeroSecond =>
      dsimp only at hmade ⊢
      cases htable : tableAt s source target position zeroSecond with
      | error e =>
        simp only [htable] at hmade ⊢
        cases hmade
        exact ⟨next', rfl, hleft⟩
      | ok table =>
        rcases hothers : tablesAt s source target next positions with ⟨others, last⟩
        obtain ⟨last', hothers', hlast⟩ := ih hleft hothers
        simp only [htable, hothers, hothers'] at hmade ⊢
        cases others with
        | error e =>
          cases hmade
          exact ⟨last', rfl, hlast⟩
        | ok others =>
          cases hmade
          exact ⟨last', rfl, hlast⟩

theorem garble_alike {order order' rest : RowOrder P} (h : order.Alike order') {wires : Nat}
    {tables : Except Error Tables} (hmade : garble s wires source target order = (tables, rest)) :
    ∃ rest', garble s wires source target order' = (tables, rest') ∧ rest.Alike rest' := by
  unfold garble at hmade ⊢
  dsimp only at hmade ⊢
  split at hmade
  · cases hmade
    exact ⟨order', rfl, h⟩
  · rcases hfound : tablesAt s source target order (List.range wires) with ⟨found, last⟩
    obtain ⟨last', hfound', hlast⟩ := tablesAt_alike h hfound
    rw [hfound] at hmade
    rw [hfound']
    cases hmade
    exact ⟨last', rfl, hlast⟩

end Layer

/-! ## The inner circuit -/

/-- A garbling from a seed that succeeds does so in every other state of the circuit, with the
same result. -/
theorem FreeXor.garbleSeeded_restarts {G : Type} [Generator G] [Restarting G]
    {c c' made : FreeXor G} (hcircuit : c'.circuit = c.circuit) (hhash : c'.hash = c.hash)
    {seed : Bytes} {keys : KeyMaterial} (h : c.garbleSeeded seed = (.ok keys, made)) :
    ∃ made', c'.garbleSeeded seed = (.ok keys, made') ∧ made'.tables = made.tables ∧
      made'.translation = made.translation := by
  unfold garbleSeeded at h
  split at h
  · cases h
  rename_i keyed hkeyed
  split at h
  · cases h
  rename_i key next hkey
  obtain ⟨keyed', next', hkeyed', hkey'⟩ := Restarting.draw hkeyed hkey c'.generator
  unfold garble garbleWith at h
  split at h
  · cases h
  rename_i found tables hgarble
  cases h
  dsimp only at hgarble
  rw [← hcircuit, ← hhash] at hgarble
  unfold garbleSeeded garble garbleWith
  simp only [hkeyed', hkey', hgarble]
  exact ⟨_, rfl, rfl, rfl⟩

namespace Layered

variable {P G : Type} [Generator P]

/-! ## The layers of a garbling -/

theorem layerTables_alike {order order' rest : RowOrder P} (h : order.Alike order')
    {keys : Option Bytes} (garble : RowOrder P → Bytes → Except Error Tables × RowOrder P)
    (hgarble : ∀ pinned tables rest, garble order pinned = (tables, rest) →
      ∃ rest', garble order' pinned = (tables, rest') ∧ rest.Alike rest')
    {tables : Except Error (Option Tables)}
    (hmade : layerTables order keys (garble order) = (tables, rest)) :
    ∃ rest', layerTables order' keys (garble order') = (tables, rest') ∧ rest.Alike rest' := by
  unfold layerTables at hmade ⊢
  cases keys with
  | none =>
    cases hmade
    exact ⟨order', rfl, h⟩
  | some pinned =>
    rcases hfound : garble order pinned with ⟨found, last⟩
    obtain ⟨last', hfound', hlast⟩ := hgarble pinned found last hfound
    simp only [hfound, hfound'] at hmade ⊢
    cases hmade
    exact ⟨last', rfl, hlast⟩

/-- A success of the last step of a garbling: the tables of the input side, then those of the
output side with the row orders that are left, and the keys to report. -/
theorem finish_eq_ok {c made : Layered P G} {inner keys : KeyMaterial} {order : RowOrder P}
    (h : c.finish inner order = (.ok keys, made)) : ∃ input output next last,
      c.inputTables inner order = (.ok input, next) ∧
      c.outputTables inner next = (.ok output, last) ∧
      made = { c with
        generator := last.generatorOr c.generator
        input := { c.input with tables := input }
        output := { c.output with tables := output }
        garbled := true } ∧
      keys = { inputKeys := c.input.pinned.getD inner.inputKeys
               outputKeys := c.output.pinned.getD inner.outputKeys
               translation := inner.translation } := by
  unfold finish at h
  split at h
  · cases h
  rename_i input next hinput
  dsimp only at h
  split at h
  · cases h
  rename_i output last houtput
  cases h
  exact ⟨input, output, next, last, hinput, houtput, rfl, rfl⟩

/-- Without layers, the last step of a garbling always succeeds. -/
theorem finish_of_unlayered {c : Layered P G} (hin : c.input.layered = false)
    (hout : c.output.layered = false) (inner : KeyMaterial) (order : RowOrder P) :
    ∃ keys made, c.finish inner order = (.ok keys, made) ∧ made.inner = c.inner := by
  unfold finish inputTables outputTables Side.keysToBridge
  rw [hin]
  simp only [Bool.false_eq_true, if_false, layerTables, hout]
  exact ⟨_, _, rfl, rfl⟩

/-- Two circuits with the same pinned keys to lead to, and with row orders that are alike, get
the same tables on both sides. -/
theorem finish_alike {c c' made made' : Layered P G} {inner keys keys' : KeyMaterial}
    {order order' : RowOrder P} (horder : order.Alike order')
    (hcircuit : c'.inner.circuit = c.inner.circuit) (hscheme : c'.scheme = c.scheme)
    (hin : c'.input.keysToBridge = c.input.keysToBridge)
    (hout : c'.output.keysToBridge = c.output.keysToBridge)
    (h : c.finish inner order = (.ok keys, made))
    (h' : c'.finish inner order' = (.ok keys', made')) :
    made'.input.tables = made.input.tables ∧ made'.output.tables = made.output.tables := by
  obtain ⟨input, output, next, last, hinput, houtput, rfl, _⟩ := finish_eq_ok h
  obtain ⟨input', output', next', last', hinput', houtput', rfl, _⟩ := finish_eq_ok h'
  unfold inputTables at hinput hinput'
  unfold outputTables at houtput houtput'
  rw [hscheme, FreeXor.inputCount_congr hcircuit, hin] at hinput'
  rw [hscheme, FreeXor.outputCount_congr hcircuit, hout] at houtput'
  obtain ⟨rest, hsame, hrest⟩ := layerTables_alike horder
    (fun order pinned => Layer.garble c.scheme c.inner.inputCount
      ⟨pinned, c.scheme.cipherSize⟩ ⟨inner.inputKeys, FreeXor.keySize⟩ order)
    (fun _ _ _ => Layer.garble_alike horder) hinput
  rw [hsame] at hinput'
  cases hinput'
  obtain ⟨rest', hsame', _⟩ := layerTables_alike hrest
    (fun order pinned => Layer.garble c.scheme c.inner.outputCount
      ⟨inner.outputKeys, FreeXor.keySize⟩ ⟨pinned, c.scheme.cipherSize⟩ order)
    (fun _ _ _ => Layer.garble_alike hrest) houtput
  rw [hsame'] at houtput'
  cases houtput'
  exact ⟨rfl, rfl⟩

/-! ## Two states of one circuit -/

/-- The digest is that of the inner tables and the translation table. -/
theorem hashedCircuit_congr {P G P' G' : Type} {c : Layered P G} {c' : Layered P' G'}
    (htables : c'.inner.tables = c.inner.tables)
    (htranslation : c'.inner.translation = c.inner.translation) (d : Digest) :
    c'.hashedCircuit d = c.hashedCircuit d := by
  rw [hashedCircuit, hashedCircuit, committedBytes, committedBytes, htables, htranslation]

section

variable [Generator G] [Restarting P] [Restarting G]

/-- A garbling from a seed that succeeds brings the same inner garbling and the same row orders
to the last step in every other state of the circuit. -/
theorem garbleSeeded_restarts {c c' made : Layered P G}
    (hcircuit : c'.inner.circuit = c.inner.circuit) (hhash : c'.inner.hash = c.inner.hash)
    {seed : Bytes} {keys : KeyMaterial} (h : c.garbleSeeded seed = (.ok keys, made)) :
    ∃ innerKeys inner inner' rows rows',
      finish { c with generator := rows, inner } innerKeys (.seeded rows) = (.ok keys, made) ∧
      c'.garbleSeeded seed =
        finish { c' with generator := rows', inner := inner' } innerKeys (.seeded rows') ∧
      Generator.Alike rows rows' ∧ inner'.circuit = inner.circuit ∧
      inner'.tables = inner.tables ∧ inner'.translation = inner.translation := by
  unfold garbleSeeded at h
  split at h
  · cases h
  rename_i keyed hkeyed
  split at h
  · cases h
  rename_i innerSeed rowSeed next hseeds
  split at h
  · cases h
  rename_i innerKeys inner hinner
  split at h
  · cases h
  rename_i rows hrows
  obtain ⟨seeds, hdraw, htake, hdrop⟩ := drawSeeds_eq_ok.1 hseeds
  obtain ⟨keyed', next', hkeyed', hdraw'⟩ := Restarting.draw hkeyed hdraw c'.generator
  have hseeds' := drawSeeds_eq_ok.2 ⟨seeds, hdraw', htake, hdrop⟩
  obtain ⟨inner', hinner', htables, htranslation⟩ :=
    FreeXor.garbleSeeded_restarts hcircuit hhash hinner
  obtain ⟨rows', hrows', halike⟩ := Restarting.rekey hrows next'
  refine ⟨innerKeys, inner, inner', rows, rows', h, ?_, halike, ?_, htables, htranslation⟩
  · unfold garbleSeeded
    simp only [hkeyed', hseeds', hinner', hrows']
  · have hsame := (innerSupplies_garbleSeeded c.inner innerSeed).circuit
    have hsame' := (innerSupplies_garbleSeeded c'.inner innerSeed).circuit
    rw [hinner] at hsame
    rw [hinner'] at hsame'
    exact hsame'.trans (hcircuit.trans hsame.symm)

/-- A garbling from a seed that succeeds does so in every state of the circuit without layers, and
makes the same inner tables and the same translation table there. -/
theorem garbleSeeded_of_unlayered {c c' made : Layered P G}
    (hcircuit : c'.inner.circuit = c.inner.circuit) (hhash : c'.inner.hash = c.inner.hash)
    (hin : c'.input.layered = false) (hout : c'.output.layered = false) {seed : Bytes}
    {keys : KeyMaterial} (h : c.garbleSeeded seed = (.ok keys, made)) :
    ∃ keys' made', c'.garbleSeeded seed = (.ok keys', made') ∧
      made'.inner.tables = made.inner.tables ∧
      made'.inner.translation = made.inner.translation := by
  obtain ⟨innerKeys, inner, inner', rows, rows', hfinish, hfinish', _, _, htables, htranslation⟩ :=
    garbleSeeded_restarts hcircuit hhash h
  obtain ⟨keys', made', hmade', hinner'⟩ := finish_of_unlayered
    (c := { c' with generator := rows', inner := inner' }) hin hout innerKeys (.seeded rows')
  have hinner : made.inner = inner := (finished_of_finish hfinish).inner
  refine ⟨keys', made', hfinish'.trans hmade', ?_, ?_⟩
  · rw [hinner, hinner']
    exact htables
  · rw [hinner, hinner']
    exact htranslation

/-- Two instances over one circuit with one scheme, after any operations each, are garbled from
the same seed. If both succeed, the inner tables, the translation table and the digest are the
same, and so are the keys of a side that has pinned keys in neither. With the same pinned keys,
everything that is reported is the same, and all tables are. -/
theorem seeded_garbling_follows_from_seed_and_pins {circuit : Circuit} {scheme : Scheme}
    {start start' : Layered P G} (hstart : start.IsNew circuit scheme)
    (hstart' : start'.IsNew circuit scheme) {ops ops' : List Operation} {seed : Bytes}
    {keys keys' : KeyMaterial} {made made' : Layered P G}
    (h : (start.run ops).garbleSeeded seed = (.ok keys, made))
    (h' : (start'.run ops').garbleSeeded seed = (.ok keys', made')) :
    made'.inner.tables = made.inner.tables ∧ made'.inner.translation = made.inner.translation ∧
    keys'.translation = keys.translation ∧ (∀ d, made'.hashedCircuit d = made.hashedCircuit d) ∧
    ((start.run ops).input.pinned = none → (start'.run ops').input.pinned = none →
      keys'.inputKeys = keys.inputKeys) ∧
    ((start.run ops).output.pinned = none → (start'.run ops').output.pinned = none →
      keys'.outputKeys = keys.outputKeys) ∧
    ((start'.run ops').input.pinned = (start.run ops).input.pinned →
      (start'.run ops').output.pinned = (start.run ops).output.pinned →
      keys' = keys ∧ made'.tables = made.tables) := by
  have hsound := hstart.sound.run ops
  have hsound' := hstart'.sound.run ops'
  obtain ⟨hcircuit, hhash, hscheme, _⟩ := hstart.run ops
  obtain ⟨hcircuit', hhash', hscheme', _⟩ := hstart'.run ops'
  obtain ⟨innerKeys, inner, inner', rows, rows', hfinish, hfinish', halike, hsame, htables,
    htranslation⟩ := garbleSeeded_restarts (hcircuit'.trans hcircuit.symm)
      (hhash'.trans hhash.symm) h
  rw [h'] at hfinish'
  have hlayers (hin : (start'.run ops').input.keysToBridge = (start.run ops).input.keysToBridge)
      (hout : (start'.run ops').output.keysToBridge = (start.run ops).output.keysToBridge) :
      made'.input.tables = made.input.tables ∧ made'.output.tables = made.output.tables := by
    refine finish_alike (.seeded halike) ?_ ?_ ?_ ?_ hfinish hfinish'.symm
    · exact hsame
    · exact hscheme'.trans hscheme.symm
    · exact hin
    · exact hout
  obtain ⟨_, _, _, _, _, _, rfl, rfl⟩ := finish_eq_ok hfinish
  obtain ⟨_, _, _, _, _, _, rfl, rfl⟩ := finish_eq_ok hfinish'.symm
  refine ⟨htables, htranslation, rfl, fun d => hashedCircuit_congr htables htranslation d, ?_, ?_,
    ?_⟩
  · intro hin hin'
    simp only [hin, hin']
  · intro hout hout'
    simp only [hout, hout']
  · intro hin hout
    rw [hsound.input.keysToBridge, hsound'.input.keysToBridge, hsound.output.keysToBridge,
      hsound'.output.keysToBridge] at hlayers
    obtain ⟨hinput, houtput⟩ := hlayers hin hout
    refine ⟨by simp only [hin, hout], ?_⟩
    unfold Layered.tables
    rw [hinput, houtput]
    simp only [htables]

end

/-- One wire that has received tables, and one with pinned output keys. -/
theorem received_wire_and_pinned_wire_share_the_inner_garbling : ∃ keys keys' made made',
    (newWire.run [.setTables foreignTables]).garbleSeeded (Bytes.zeros 16) = (.ok keys, made) ∧
    (newWire.run [.setOutputKeys wireKeys]).garbleSeeded (Bytes.zeros 16) = (.ok keys', made') ∧
    made'.inner.translation = made.inner.translation ∧ keys'.inputKeys = keys.inputKeys ∧
    ∀ d, made'.hashedCircuit d = made.hashedCircuit d := by
  obtain ⟨keys, made, _, hreceived, _⟩ := garbleSeeded_receivedWire
  obtain ⟨keys', made', hpinned, _⟩ := garbleSeeded_pinnedWire
  have h : (newWire.run [.setTables foreignTables]).garbleSeeded (Bytes.zeros 16) =
      (.ok keys, made) := hreceived
  have h' : (newWire.run [.setOutputKeys wireKeys]).garbleSeeded (Bytes.zeros 16) =
      (.ok keys', made') := hpinned
  obtain ⟨_, htranslation, _, hdigest, hinput, _⟩ :=
    seeded_garbling_follows_from_seed_and_pins isNew_newWire isNew_newWire h h'
  exact ⟨keys, keys', made, made', h, h', htranslation, hinput rfl rfl, hdigest⟩

end Layered

end Garbling
