-- What a garbling leaves after operations in any order. Keys stay pinned
-- only on a side with a layer, but tables that were received put up a
-- layer without any keys. A later garbling has no tables for such a side,
-- and then nothing can be evaluated. All other garblings are consistent.
import Garbling.Proofs.Layered.MissingTables
import Garbling.Proofs.Layered.Preparation
import Garbling.Proofs.Layered.Received

namespace Garbling

/-! ## What every operation keeps -/

/-- Pinned keys have a layer, and fit it. A layer may do without pinned keys. -/
structure Side.Sound (side : Side) (wires size : Nat) : Prop where
  layered : side.pinned.isSome = true → side.layered = true
  length : ∀ keys, side.pinned = some keys → keys.length = 2 * wires * size
  count : ∀ keys, side.pinned = some keys → wires ≤ 0x100000000

namespace Side

/-- There is a layer, but there are no keys pinned that garbling could make its tables for. -/
def Keyless (side : Side) : Prop := side.layered = true ∧ side.pinned = none

/-- There is a layer if and only if keys are pinned, and if and only if there are tables. -/
def Consistent (side : Side) : Prop :=
  side.layered = side.pinned.isSome ∧ side.tables.isSome = side.pinned.isSome

variable {side side' : Side} {wires size : Nat}

theorem Ready.sound (h : side.Ready wires size) : side.Sound wires size :=
  ⟨fun hpinned => h.layered.trans hpinned, h.length, h.count⟩

/-- A sound side is ready for garbling unless it has a layer without keys. -/
theorem Sound.ready (h : side.Sound wires size) (hkeys : ¬ side.Keyless) :
    side.Ready wires size := by
  refine ⟨?_, h.length, h.count⟩
  cases hpinned : side.pinned with
  | none =>
    rw [Option.isSome_none, Bool.eq_false_iff]
    exact fun hlayered => hkeys ⟨hlayered, hpinned⟩
  | some keys => exact h.layered (by rw [hpinned]; rfl)

/-- Garbling makes tables for the pinned keys of a sound side, and for no others. -/
theorem Sound.keysToBridge (h : side.Sound wires size) : side.keysToBridge = side.pinned := by
  rw [Side.keysToBridge]
  cases hpinned : side.pinned with
  | none => exact ite_self _
  | some keys => rw [if_pos (h.layered (by rw [hpinned]; rfl))]

/-- Whether a side is sound does not depend on its tables. -/
theorem Sound.replaceTables (h : side.Sound wires size) (tables : Option Tables) :
    ({ side with tables } : Side).Sound wires size := ⟨h.layered, h.length, h.count⟩

/-- A sound side whose tables were made for its keys is consistent unless it has none. -/
theorem Sound.consistent_iff (h : side.Sound wires size)
    (htables : side.tables.isSome = side.keysToBridge.isSome) :
    side.tables.isSome = side.pinned.isSome ∧ (side.Consistent ↔ ¬ side.Keyless) := by
  have hsome : side.tables.isSome = side.pinned.isSome := by
    rw [htables, h.keysToBridge]
  refine ⟨hsome, ?_, fun hkeys => ⟨(h.ready hkeys).layered, hsome⟩⟩
  rintro ⟨hconsistent, _⟩ ⟨hlayered, hpinned⟩
  rw [hlayered, hpinned] at hconsistent
  cases hconsistent

theorem Sound.expect {received : Option Tables} (h : side.Sound wires size)
    (hexpect : side.expect wires received = .ok side') : side'.Sound wires size := by
  obtain ⟨_, rfl⟩ := expect_eq_ok.1 hexpect
  cases received with
  | none => exact (ready_new wires size).sound.replaceTables side.tables
  | some tables => exact ⟨fun _ => rfl, h.length, h.count⟩

end Side

namespace Layered

variable {P G : Type}

/-- Both sides are sound for the wires of the circuit and the scheme. -/
structure Sound (c : Layered P G) : Prop where
  input : c.input.Sound c.inner.inputCount c.scheme.cipherSize
  output : c.output.Sound c.inner.outputCount c.scheme.cipherSize

section

variable {c c' : Layered P G}

theorem sound_new {inner : FreeXor G} {scheme : Scheme} {generator : P}
    (hstart : ofInner inner scheme generator = .ok c) : c.Sound := by
  obtain ⟨_, rfl⟩ := ofInner_eq_ok.1 hstart
  exact ⟨(Side.ready_new _ _).sound, (Side.ready_new _ _).sound⟩

theorem IsNew.sound {circuit : Circuit} {scheme : Scheme} (h : c.IsNew circuit scheme) :
    c.Sound := by
  obtain ⟨_, _, _, _, hc⟩ := h
  exact sound_new hc

theorem Sound.keep (h : c.Sound) (hf : c.Follows c') (hk : c.KeepsSides c') : c'.Sound := by
  constructor
  · rw [hk.input, FreeXor.inputCount_congr hf.circuit, hf.scheme]
    exact h.input.replaceTables _
  · rw [hk.output, FreeXor.outputCount_congr hf.circuit, hf.scheme]
    exact h.output.replaceTables _

theorem Sound.setInputKeys {keys : Bytes} (h : c.Sound) (hset : c.setInputKeys keys = .ok c') :
    c'.Sound := by
  obtain ⟨_, input, hpin, rfl⟩ := of_setInputKeys hset
  exact ⟨(Side.ready_pin hpin).1.sound, h.output⟩

theorem Sound.setOutputKeys {keys : Bytes} (h : c.Sound) (hset : c.setOutputKeys keys = .ok c') :
    c'.Sound := by
  obtain ⟨_, output, hpin, rfl⟩ := of_setOutputKeys hset
  exact ⟨h.input, (Side.ready_pin hpin).1.sound⟩

/-- Tables that are refused late have already changed the sides before. -/
theorem Sound.setTables (h : c.Sound) (tables : LayeredTables) : (c.setTables tables).2.Sound := by
  unfold Layered.setTables
  split
  · exact h
  split
  · exact h
  split
  · exact h
  rename_i inner hinner
  have hcircuit : inner.circuit = c.inner.circuit := by
    unfold FreeXor.setTables at hinner
    split at hinner
    · cases hinner
      rfl
    · cases hinner
  have hin : c.input.Sound inner.inputCount c.scheme.cipherSize := by
    rw [FreeXor.inputCount_congr hcircuit]
    exact h.input
  have hout : c.output.Sound inner.outputCount c.scheme.cipherSize := by
    rw [FreeXor.outputCount_congr hcircuit]
    exact h.output
  split
  · exact ⟨hin, hout⟩
  rename_i input hinput
  split
  · exact ⟨hin.expect hinput, hout⟩
  · rename_i output houtput
    exact ⟨(hin.expect hinput).replaceTables _, (hout.expect houtput).replaceTables _⟩

variable [Generator P] [Generator G]

theorem Sound.garbleSeeded (h : c.Sound) (seed : Bytes) : (c.garbleSeeded seed).2.Sound :=
  h.keep (supplies_garbleSeeded c seed).follows (keepsSides_garbleSeeded c seed)

/-- Keys that are refused late leave those before them pinned. -/
theorem Sound.garblePinned (h : c.Sound) (seed : Bytes) (inputKeys outputKeys : Option Bytes) :
    (c.garblePinned seed inputKeys outputKeys).2.Sound := by
  unfold Layered.garblePinned
  split
  · exact h
  rename_i c1 hinput
  have h1 : c1.Sound := of_elim Sound h (fun _ _ => h.setInputKeys) hinput
  split
  · exact h1
  rename_i c2 houtput
  have h2 : c2.Sound := of_elim Sound h1 (fun _ _ => h1.setOutputKeys) houtput
  exact h2.garbleSeeded seed

theorem Sound.verifyHashed (h : c.Sound) (seed : Bytes) (inputKeys outputKeys : Option Bytes)
    (d : Digest) (digest : Bytes) :
    (c.verifyHashed seed inputKeys outputKeys d digest).2.Sound := by
  have hgarble := h.garblePinned seed inputKeys outputKeys
  unfold Layered.verifyHashed
  split
  · exact h
  split
  · rename_i hfail
    rwa [hfail] at hgarble
  · rename_i hok
    rwa [hok] at hgarble

/-- An operation keeps the sides sound, whether it succeeds or not. -/
theorem Sound.perform (h : c.Sound) (op : Operation) : (c.perform op).2.Sound := by
  cases op with
  | setInputKeys keys => exact of_orUnchanged Sound h fun _ => h.setInputKeys
  | setOutputKeys keys => exact of_orUnchanged Sound h fun _ => h.setOutputKeys
  | garble key rows =>
    exact h.keep (supplies_garble c key rows).follows (keepsSides_garble c key rows)
  | garbleSeeded seed => exact h.garbleSeeded seed
  | setTables tables => exact h.setTables tables
  | setTranslation translation => exact ⟨h.input, h.output⟩
  | verifyHashed seed inputKeys outputKeys d digest =>
    exact h.verifyHashed seed inputKeys outputKeys d digest

theorem Sound.run (h : c.Sound) (ops : List Operation) : (c.run ops).Sound := by
  induction ops generalizing c with
  | nil => exact h
  | cons op ops ih => exact ih (h.perform op)

end

/-! ## After a garbling -/

section

variable {c c' : Layered P G} {keys : KeyMaterial}

/-- After an honest garbling, the reported keys fit the circuit, and an evaluation never says
that it is not garbled. -/
theorem Honest.fits {offset : Block} {zero : Nat → Block} (h : c.Honest keys offset zero) :
    keys.inputKeys.length = 2 * c.inner.inputCount * c.inputKeySize ∧
      keys.outputKeys.length = 2 * c.inner.outputCount * c.outputKeySize ∧
      ∀ input, c.compute input ≠ .error .notGarbled := by
  obtain ⟨_, hinner⟩ := h.inner
  exact ⟨h.input.sourceLength (FreeXor.length_inputPairs _ _ _),
    h.output.targetLength (FreeXor.length_outputPairs _ _ _),
    avoids_compute h.garbled hinner.garbled h.input.isSome_tables h.output.isSome_tables⟩

variable [Generator P] [Generator G]

theorem Garbles.follows (h : c.Garbles keys c') : c.Follows c' ∧ c.KeepsSides c' := by
  cases h with
  | random key rows h =>
    have hfollows := (supplies_garble c key rows).follows
    have hkeeps := keepsSides_garble c key rows
    rw [h] at hfollows hkeeps
    exact ⟨hfollows, hkeeps⟩
  | seeded seed h =>
    have hfollows := (supplies_garbleSeeded c seed).follows
    have hkeeps := keepsSides_garbleSeeded c seed
    rw [h] at hfollows hkeeps
    exact ⟨hfollows, hkeeps⟩

/-- Whatever operations have led to a circuit, a garbling that succeeds makes tables for the
sides with pinned keys only. It leaves a side consistent if and only if the side did not have
a layer without keys before. With two consistent sides, the reported keys fit and evaluation
never says that the circuit is not garbled. With another one, no evaluation succeeds at all. -/
theorem garbling_is_consistent_unless_a_layer_lacks_keys {inner : FreeXor G} {scheme : Scheme}
    {generator : P} {start : Layered P G} (hstart : ofInner inner scheme generator = .ok start)
    {ops : List Operation} (h : (start.run ops).Garbles keys c') :
    (c'.input.tables.isSome = c'.input.pinned.isSome ∧
      c'.output.tables.isSome = c'.output.pinned.isSome) ∧
    (c'.input.Consistent ↔ ¬ (start.run ops).input.Keyless) ∧
    (c'.output.Consistent ↔ ¬ (start.run ops).output.Keyless) ∧
    (c'.input.Consistent ∧ c'.output.Consistent →
      keys.inputKeys.length = 2 * c'.inner.inputCount * c'.inputKeySize ∧
      keys.outputKeys.length = 2 * c'.inner.outputCount * c'.outputKeySize ∧
      ∀ input, c'.compute input ≠ .error .notGarbled) ∧
    (¬ (c'.input.Consistent ∧ c'.output.Consistent) →
      ∀ input output, c'.compute input ≠ .ok output) := by
  have hsound := (sound_new hstart).run ops
  obtain ⟨hfollows, hkeeps⟩ := h.follows
  have hsound' := hsound.keep hfollows hkeeps
  obtain ⟨hin, hout⟩ := h.isSome_tables
  obtain ⟨hpinned, hconsistent⟩ := hsound'.input.consistent_iff hin
  obtain ⟨hpinned', hconsistent'⟩ := hsound'.output.consistent_iff hout
  have hkeyless : c'.input.Keyless ↔ (start.run ops).input.Keyless := by
    rw [hkeeps.input]
    exact Iff.rfl
  have hkeyless' : c'.output.Keyless ↔ (start.run ops).output.Keyless := by
    rw [hkeeps.output]
    exact Iff.rfl
  refine ⟨⟨hpinned, hpinned'⟩, ?_, ?_, ?_, ?_⟩
  · rw [hconsistent, hkeyless]
  · rw [hconsistent', hkeyless']
  · rw [hconsistent, hconsistent', hkeyless, hkeyless']
    rintro ⟨hkeys, hkeys'⟩
    obtain ⟨_, _, _, offset, zero, honest⟩ :=
      h.honest (hsound.input.ready hkeys) (hsound.output.ready hkeys')
    exact honest.fits
  · rw [hconsistent, hconsistent', Classical.not_and_iff_not_or_not,
      Classical.not_not, Classical.not_not]
    intro hlacks input output hcompute
    obtain ⟨⟨_, hinput⟩, _, houtput⟩ := sides_of_compute hcompute
    rcases hlacks with ⟨hlayered, hnone⟩ | ⟨hlayered, hnone⟩
    · rw [Side.compute_eq_error hlayered (tables_eq_none_of_pinned hin hnone)] at hinput
      cases hinput
    · rw [Side.compute_eq_error hlayered (tables_eq_none_of_pinned hout hnone)] at houtput
      cases houtput

end

theorem pinned_negation_is_consistent : ∃ keys c',
    let pins : List Operation := [.setInputKeys negationKeys, .setOutputKeys negationKeys]
    (newNegation.run pins).Garbles keys c' ∧ c'.input.Consistent ∧ c'.output.Consistent ∧
      keys.inputKeys.length = 2 * c'.inner.inputCount * c'.inputKeySize ∧
      keys.outputKeys.length = 2 * c'.inner.outputCount * c'.outputKeySize ∧
      ∀ input, c'.compute input ≠ .error .notGarbled := by
  obtain ⟨keys, c', hgarble, _, _⟩ := garble_pinnedNegation
  let pins : List Operation := [.setInputKeys negationKeys, .setOutputKeys negationKeys]
  have hrun : newNegation.run pins = pinnedNegation := rfl
  have hgarbles : (newNegation.run pins).Garbles keys c' := .random 7 _ hgarble
  obtain ⟨_, hin, hout, hfits, _⟩ := garbling_is_consistent_unless_a_layer_lacks_keys
    (show ofInner newNegation.inner .block {} = .ok newNegation from rfl) hgarbles
  have hkeys : ∀ side : Side, side.pinned = some negationKeys → ¬ side.Keyless := by
    rintro side hpinned ⟨_, hnone⟩
    rw [hpinned] at hnone
    cases hnone
  have hinput := hin.2 (hkeys _ rfl)
  have houtput := hout.2 (hkeys _ rfl)
  exact ⟨keys, c', hgarbles, hinput, houtput, hfits ⟨hinput, houtput⟩⟩

/-! ## A layer without keys -/

/-- No inner tables, and one empty table for the input wire. -/
def foreignTables : LayeredTables := { inner := ⟨[]⟩, input := some ⟨[some []]⟩ }

/-- One wire that has received these tables. -/
def receivedWire : Layered (StreamGenerator .aesCounter) (StreamGenerator .aesCounter) :=
  { newWire with
    inner := { newWire.inner with tables := ⟨[]⟩, garbled := true }
    input := { layered := true, tables := some ⟨[some []]⟩ }
    garbled := true }

theorem garbleSeeded_receivedWire : ∃ keys c' key,
    receivedWire.garbleSeeded (Bytes.zeros 16) = (.ok keys, c') ∧
      c'.garbledInput [0] keys.inputKeys 1 = .ok key ∧ key.length = 16 := by
  have hkey : (receivedWire.garbleSeeded (Bytes.zeros 16)).1.toOption.any fun keys =>
      ((receivedWire.garbleSeeded (Bytes.zeros 16)).2.garbledInput [0] keys.inputKeys
        1).toOption.any (·.length == 16) := by
    decide +kernel
  rcases hgarble : receivedWire.garbleSeeded (Bytes.zeros 16) with ⟨e | keys, c'⟩
  · rw [hgarble] at hkey
    cases hkey
  rw [hgarble] at hkey
  rcases hinput : c'.garbledInput [0] keys.inputKeys 1 with e | key
  · simp [Except.toOption, hinput] at hkey
  · simp only [Except.toOption, hinput, Option.any_some, beq_iff_eq] at hkey
    exact ⟨keys, c', key, rfl, hinput, hkey⟩

/-- A circuit that has received tables for its input side is garbled again. This succeeds, and
yet there is a layer without keys and without tables, and evaluation on the key for an input
bit says that the circuit is not garbled. -/
theorem garbling_after_foreign_tables_is_not_consistent :
    newWire.setTables foreignTables = (.ok (), receivedWire) ∧
    newWire.run [.setTables foreignTables] = receivedWire ∧
    ∃ keys c' key, receivedWire.garbleSeeded (Bytes.zeros 16) = (.ok keys, c') ∧
      ¬ c'.input.Consistent ∧ c'.garbledInput [0] keys.inputKeys 1 = .ok key ∧
      c'.compute key = .error .notGarbled := by
  refine ⟨rfl, rfl, ?_⟩
  obtain ⟨keys, c', key, hgarble, hkey, hlen⟩ := garbleSeeded_receivedWire
  have hgarbles : receivedWire.Garbles keys c' := .seeded _ hgarble
  obtain ⟨hfollows, hkeeps⟩ := hgarbles.follows
  have hlayered : c'.input.layered = true := by
    rw [hkeeps.input]
    rfl
  have hpinned : c'.input.pinned = none := by
    rw [hkeeps.input]
    rfl
  have htables := tables_eq_none_of_pinned hgarbles.isSome_tables.1 hpinned
  have hgarbled : c'.garbled = true := by
    have hok := (supplies_garbleSeeded receivedWire (Bytes.zeros 16)).ok
    rw [hgarble] at hok
    exact (hok keys rfl).1
  refine ⟨keys, c', key, hgarble, ?_, hkey, ?_⟩
  · rintro ⟨hconsistent, _⟩
    rw [hlayered, hpinned] at hconsistent
    cases hconsistent
  · refine compute_eq_notGarbled hgarbled hlayered htables ?_
    rw [hlen, inputKeySize_of_layered hlayered, hfollows.scheme, FreeXor.inputCount,
      hfollows.circuit]
    rfl

end Layered

end Garbling
