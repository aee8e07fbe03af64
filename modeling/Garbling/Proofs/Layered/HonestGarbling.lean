-- Honest garbling with layers. A success is a garbling of the inner
-- circuit and of a layer on each side with pinned keys, which then are
-- the keys that are reported. The layers lead from these to the inner
-- keys and back, if their sentinels differ.
import Garbling.Layered.Garbling
import Garbling.MultiKey.BlockScheme
import Garbling.Proofs.Layered.Evaluation
import Garbling.Proofs.Layered.HonestLayer
import Garbling.Proofs.Layered.Operations

namespace Garbling

/-! ## Sides before garbling -/

theorem Layer.checkCount_eq_ok {wires : Nat} : checkCount wires = .ok () ↔ wires ≤ 0x100000000 := by
  unfold checkCount
  split
  · next h => exact ⟨fun _ => h, fun _ => rfl⟩
  · next h => exact ⟨fun he => (nomatch he), fun hle => absurd hle h⟩

/-- A side before garbling: there is a layer if and only if keys are pinned, both for every
wire, and no more wires than identity gates can have. -/
structure Side.Ready (side : Side) (wires size : Nat) : Prop where
  layered : side.layered = side.pinned.isSome
  length : ∀ keys, side.pinned = some keys → keys.length = 2 * wires * size
  count : ∀ keys, side.pinned = some keys → wires ≤ 0x100000000

theorem Side.ready_new (wires size : Nat) : ({} : Side).Ready wires size := by
  refine ⟨rfl, ?_, ?_⟩
  · intro keys h
    cases h
  · intro keys h
    cases h

theorem Side.ready_pin {side side' : Side} {wires size : Nat} {keys : Bytes}
    (h : side.pin wires size keys = .ok side') :
    side'.Ready wires size ∧ side'.pinned = some keys := by
  unfold pin at h
  obtain ⟨_, hlen, h⟩ := bind_eq_ok.1 h
  obtain ⟨_, hcount, h⟩ := bind_eq_ok.1 h
  rw [KeyArray.checkLength_eq_ok] at hlen
  rw [Layer.checkCount_eq_ok] at hcount
  rw [pure_eq_ok] at h
  subst h
  refine ⟨⟨rfl, ?_, fun _ _ => hcount⟩, rfl⟩
  intro keys' h
  cases h
  exact hlen

theorem Side.Ready.keysToBridge {side : Side} {wires size : Nat} (h : side.Ready wires size) :
    side.keysToBridge = side.pinned := by
  rw [Side.keysToBridge, h.layered]
  cases side.pinned <;> rfl

namespace Layered

variable {P G : Type} [Generator P]

/-! ## A success of garbling -/

/-- The tables of a side with pinned keys, and none for a side without. -/
theorem layerTables_eq_ok {order order' : RowOrder P} {keys : Option Bytes}
    {garble : Bytes → Except Error Tables × RowOrder P} {tables : Option Tables}
    (h : layerTables order keys garble = (.ok tables, order')) :
    (keys = none ∧ tables = none) ∨ ∃ pinned made, keys = some pinned ∧ tables = some made ∧
      garble pinned = (.ok made, order') := by
  unfold layerTables at h
  cases keys with
  | none =>
    cases h
    exact .inl ⟨rfl, rfl⟩
  | some pinned =>
    dsimp only at h
    rcases hgarble : garble pinned with ⟨e | made, next⟩
    · rw [hgarble] at h
      cases h
    · rw [hgarble] at h
      cases h
      exact .inr ⟨pinned, made, rfl, rfl, hgarble⟩

theorem isSome_of_layerTables {order order' : RowOrder P} {keys : Option Bytes}
    {garble : Bytes → Except Error Tables × RowOrder P} {tables : Option Tables}
    (h : layerTables order keys garble = (.ok tables, order')) : tables.isSome = keys.isSome := by
  rcases layerTables_eq_ok h with ⟨rfl, rfl⟩ | ⟨_, _, rfl, rfl, _⟩
  · rfl
  · rfl

/-- A ready side without pinned keys gets no tables, and one with some gets those that lead
from or to these. -/
theorem layerTables_of_ready {side : Side} {wires size : Nat} (h : side.Ready wires size)
    {order order' : RowOrder P} {garble : Bytes → Except Error Tables × RowOrder P}
    {tables : Option Tables}
    (ht : layerTables order side.keysToBridge garble = (.ok tables, order')) :
    (side.layered = false ∧ side.pinned = none ∧ tables = none) ∨
      ∃ pinned made, side.layered = true ∧ side.pinned = some pinned ∧ tables = some made ∧
        wires ≤ 0x100000000 ∧ garble pinned = (.ok made, order') := by
  rw [h.keysToBridge] at ht
  have hlayered := h.layered
  rcases layerTables_eq_ok ht with ⟨hpinned, rfl⟩ | ⟨pinned, made, hpinned, rfl, hgarble⟩
  · rw [hpinned] at hlayered
    exact .inl ⟨hlayered, hpinned, rfl⟩
  · rw [hpinned] at hlayered
    exact .inr ⟨pinned, made, hlayered, hpinned, rfl, h.count pinned hpinned, hgarble⟩

/-- The tables of the output layer do not depend on the input side. -/
theorem outputTables_input (c : Layered P G) (input : Side) (inner : KeyMaterial)
    (order : RowOrder P) :
    ({ c with input } : Layered P G).outputTables inner order = c.outputTables inner order := rfl

/-- The circuit after its layers were made: all that has changed are the tables. -/
structure Finished (c : Layered P G) (innerKeys keys : KeyMaterial) (c' : Layered P G) : Prop where
  inner : c'.inner = c.inner
  scheme : c'.scheme = c.scheme
  garbled : c'.garbled = true
  keys : keys = { inputKeys := c.input.pinned.getD innerKeys.inputKeys
                  outputKeys := c.output.pinned.getD innerKeys.outputKeys
                  translation := innerKeys.translation }
  input : ∃ tables order order', c'.input = { c.input with tables } ∧
    c.inputTables innerKeys order = (.ok tables, order')
  output : ∃ tables order order', c'.output = { c.output with tables } ∧
    c.outputTables innerKeys order = (.ok tables, order')

theorem finished_of_finish {c c' : Layered P G} {inner keys : KeyMaterial} {order : RowOrder P}
    (h : c.finish inner order = (.ok keys, c')) : c.Finished inner keys c' := by
  unfold finish at h
  split at h
  · cases h
  rename_i inputTables order1 hin
  dsimp only at h
  split at h
  · cases h
  rename_i outputTables order2 hout
  cases h
  exact
    { inner := rfl
      scheme := rfl
      garbled := rfl
      keys := rfl
      input := ⟨inputTables, order, order1, rfl, hin⟩
      output := ⟨outputTables, order1, order2, rfl, hout⟩ }

variable [Generator G]

/-- `c'` is the circuit after a garbling of `c` that reported `keys`. -/
inductive Garbles (c : Layered P G) (keys : KeyMaterial) (c' : Layered P G) : Prop
  | random (key : Block) (rows : Nat → Bool) (h : c.garble key rows = (.ok keys, c'))
  | seeded (seed : Bytes) (h : c.garbleSeeded seed = (.ok keys, c'))

/-- Garbling with layers is garbling of the inner circuit, and then of the layers. -/
theorem Garbles.finished {c c' : Layered P G} {keys : KeyMaterial} (h : c.Garbles keys c') :
    ∃ innerKeys inner generator, c.inner.Garbles innerKeys inner ∧
      Finished { c with generator, inner } innerKeys keys c' := by
  cases h with
  | random key rows h =>
    unfold garble at h
    split at h
    · cases h
    · rename_i innerKeys inner hinner
      exact ⟨innerKeys, inner, c.generator, .random key hinner, finished_of_finish h⟩
  | seeded seed h =>
    unfold garbleSeeded at h
    split at h
    · cases h
    split at h
    · cases h
    split at h
    · cases h
    rename_i innerKeys inner hinner
    split at h
    · cases h
    · rename_i generator _
      exact ⟨innerKeys, inner, generator, .seeded _ hinner, finished_of_finish h⟩

end Layered

/-! ## Honest sides -/

/-- The sentinels of all identity tables of the side differ. -/
def Side.SentinelsDiffer (s : Scheme) (side : Side) : Prop :=
  ∀ tables ∈ side.tables, ∀ table ∈ tables.present, IdentityGate.SentinelsDiffer s table

instance (s : Scheme) (side : Side) : Decidable (side.SentinelsDiffer s) :=
  inferInstanceAs (Decidable (∀ tables ∈ side.tables, ∀ table ∈ tables.present,
    IdentityGate.SentinelsDiffer s table))

/-- The side after an honest garbling: without a layer it has the same keys inside and outside,
and otherwise its tables are honest ones between both. -/
def Side.Honest (s : Scheme) (side : Side) (wires : Nat) (source target : Layer.Keys) : Prop :=
  (side.layered = false ∧ side.tables = none ∧ source = target) ∨
    ∃ tables, side.layered = true ∧ side.tables = some tables ∧ wires ≤ 0x100000000 ∧
      Layer.Honest s tables wires source target

theorem Side.SentinelsDiffer.at {s : Scheme} {side : Side} (h : side.SentinelsDiffer s)
    {tables : Tables} (htables : side.tables = some tables) :
    ∀ position table, tables.get? position = some table → IdentityGate.SentinelsDiffer s table := by
  intro position table htable
  exact h tables htables table (Tables.mem_present_iff.2 ⟨position, htable⟩)

/-- After an honest garbling there are tables if and only if there is a layer. -/
theorem Side.Honest.isSome_tables {s : Scheme} {side : Side} {wires : Nat}
    {source target : Layer.Keys} (h : side.Honest s wires source target) :
    side.tables.isSome = side.layered := by
  rcases h with ⟨hlayered, htables, _⟩ | ⟨tables, hlayered, htables, _⟩
  · rw [htables, hlayered]
    rfl
  · rw [htables, hlayered]
    rfl

theorem Side.Honest.size {s : Scheme} {side : Side} {wires : Nat} {source target : Layer.Keys}
    (h : side.Honest s wires source target) :
    ∀ tables ∈ side.tables, tables.size = wires ∧ wires ≤ 0x100000000 := by
  intro tables hmem
  rcases h with ⟨_, htables, _⟩ | ⟨found, _, htables, hcount, h⟩
  · rw [htables] at hmem
    cases hmem
  · rw [htables] at hmem
    cases hmem
    exact ⟨h.size, hcount⟩

theorem Side.Honest.sourceLength {s : Scheme} {side : Side} {wires : Nat}
    {source target : Layer.Keys} (h : side.Honest s wires source target)
    (ht : target.bytes.length = 2 * wires * target.size) :
    source.bytes.length = 2 * wires * source.size := by
  rcases h with ⟨_, _, rfl⟩ | ⟨_, _, _, _, h⟩
  · exact ht
  · exact h.sourceLength

theorem Side.Honest.targetLength {s : Scheme} {side : Side} {wires : Nat}
    {source target : Layer.Keys} (h : side.Honest s wires source target)
    (hs : source.bytes.length = 2 * wires * source.size) :
    target.bytes.length = 2 * wires * target.size := by
  rcases h with ⟨_, _, rfl⟩ | ⟨_, _, _, _, h⟩
  · exact hs
  · exact h.targetLength

theorem Side.Honest.leads {s : Scheme} (law : s.Lawful) {side : Side} {wires : Nat}
    {source target : Layer.Keys} (h : side.Honest s wires source target)
    (hdiffer : side.SentinelsDiffer s) : side.Leads s wires source target := by
  rcases h with ⟨hlayered, _, rfl⟩ | ⟨tables, hlayered, htables, _, h⟩
  · exact .inl ⟨Side.active_eq_ok_none.2 hlayered, rfl⟩
  · refine .inr ⟨tables, Side.active_eq_ok_some.2 ⟨hlayered, htables⟩, ?_⟩
    exact Layer.leads_of_opensAt h.sourceLength h.targetLength fun position hposition =>
      h.opensAt law (hdiffer.at htables) hposition

namespace Layered

section

variable {P G : Type}

/-- The circuit after an honest garbling that reported `keys`. -/
structure Honest (c : Layered P G) (keys : KeyMaterial) (offset : Block) (zero : Nat → Block) :
    Prop where
  inner : ∃ innerKeys, c.inner.Honest innerKeys offset zero
  garbled : c.garbled = true
  translation : keys.translation = c.inner.translation
  input : c.input.Honest c.scheme c.inner.inputCount ⟨keys.inputKeys, c.inputKeySize⟩
    ⟨c.inner.inputPairs offset zero, FreeXor.keySize⟩
  output : c.output.Honest c.scheme c.inner.outputCount
    ⟨c.inner.outputPairs offset zero, FreeXor.keySize⟩ ⟨keys.outputKeys, c.outputKeySize⟩
  inputPinned : ∀ pinned ∈ c.input.pinned, keys.inputKeys = pinned
  outputPinned : ∀ pinned ∈ c.output.pinned, keys.outputKeys = pinned

/-- Honest tables encode the circuit for the reported keys if their sentinels differ. -/
theorem Honest.encodes {c : Layered P G} (law : c.scheme.Lawful) {keys : KeyMaterial}
    {offset : Block} {zero : Nat → Block} (h : c.Honest keys offset zero)
    (hin : c.input.SentinelsDiffer c.scheme) (hout : c.output.SentinelsDiffer c.scheme) :
    c.Encodes keys.inputKeys keys.outputKeys offset zero := by
  obtain ⟨_, hinner⟩ := h.inner
  exact ⟨hinner.encodes, h.input.leads law hin, h.output.leads law hout⟩

end

section

variable {P G : Type} [Generator P]

theorem Finished.honest_input {c c' : Layered P G} {innerKeys keys : KeyMaterial}
    (h : c.Finished innerKeys keys c')
    (hready : c.input.Ready c.inner.inputCount c.scheme.cipherSize) :
    c'.input.Honest c'.scheme c'.inner.inputCount ⟨keys.inputKeys, c'.inputKeySize⟩
      ⟨innerKeys.inputKeys, FreeXor.keySize⟩ := by
  obtain ⟨tables, order, order', hside, htables⟩ := h.input
  rw [inputKeySize, sideKeySize, hside, h.scheme, h.inner, h.keys]
  rcases layerTables_of_ready hready htables with
    ⟨hlayered, hpinned, rfl⟩ | ⟨pinned, made, hlayered, hpinned, rfl, hcount, hgarble⟩
  · refine .inl ⟨hlayered, rfl, ?_⟩
    simp [hpinned, hlayered]
  · refine .inr ⟨made, hlayered, rfl, hcount, ?_⟩
    simp only [hpinned, hlayered, Option.getD_some, if_true]
    exact Layer.honest_of_garble hgarble

theorem Finished.honest_output {c c' : Layered P G} {innerKeys keys : KeyMaterial}
    (h : c.Finished innerKeys keys c')
    (hready : c.output.Ready c.inner.outputCount c.scheme.cipherSize) :
    c'.output.Honest c'.scheme c'.inner.outputCount ⟨innerKeys.outputKeys, FreeXor.keySize⟩
      ⟨keys.outputKeys, c'.outputKeySize⟩ := by
  obtain ⟨tables, order, order', hside, htables⟩ := h.output
  rw [outputKeySize, sideKeySize, hside, h.scheme, h.inner, h.keys]
  rcases layerTables_of_ready hready htables with
    ⟨hlayered, hpinned, rfl⟩ | ⟨pinned, made, hlayered, hpinned, rfl, hcount, hgarble⟩
  · refine .inl ⟨hlayered, rfl, ?_⟩
    simp [hpinned, hlayered]
  · refine .inr ⟨made, hlayered, rfl, hcount, ?_⟩
    simp only [hpinned, hlayered, Option.getD_some, if_true]
    exact Layer.honest_of_garble hgarble

/-- Pinned keys stay pinned, and are the ones that are reported. -/
theorem Finished.pinned {c c' : Layered P G} {innerKeys keys : KeyMaterial}
    (h : c.Finished innerKeys keys c') : c'.input.pinned = c.input.pinned ∧
      c'.output.pinned = c.output.pinned ∧ (∀ pinned ∈ c'.input.pinned, keys.inputKeys = pinned) ∧
      ∀ pinned ∈ c'.output.pinned, keys.outputKeys = pinned := by
  obtain ⟨_, _, _, hinput, _⟩ := h.input
  obtain ⟨_, _, _, houtput, _⟩ := h.output
  rw [hinput, houtput, h.keys]
  refine ⟨rfl, rfl, ?_, ?_⟩
  · rintro pinned hpinned
    rw [show c.input.pinned = some pinned from hpinned]
    rfl
  · rintro pinned hpinned
    rw [show c.output.pinned = some pinned from hpinned]
    rfl

/-- After a garbling, a side has tables if and only if there were keys to lead to or from. -/
theorem Finished.isSome_tables {c c' : Layered P G} {innerKeys keys : KeyMaterial}
    (h : c.Finished innerKeys keys c') :
    c'.input.tables.isSome = c'.input.keysToBridge.isSome ∧
      c'.output.tables.isSome = c'.output.keysToBridge.isSome := by
  obtain ⟨_, _, _, hinput, hmade⟩ := h.input
  obtain ⟨_, _, _, houtput, hmade'⟩ := h.output
  rw [hinput, houtput]
  constructor
  · exact isSome_of_layerTables hmade
  · exact isSome_of_layerTables hmade'

/-- Any garbling of a circuit with ready sides is an honest one. -/
theorem Garbles.honest [Generator G] {c c' : Layered P G} {keys : KeyMaterial}
    (h : c.Garbles keys c') (hin : c.input.Ready c.inner.inputCount c.scheme.cipherSize)
    (hout : c.output.Ready c.inner.outputCount c.scheme.cipherSize) :
    c.Follows c' ∧ c'.input.pinned = c.input.pinned ∧ c'.output.pinned = c.output.pinned ∧
      ∃ offset zero, c'.Honest keys offset zero := by
  obtain ⟨innerKeys, inner, generator, hgarbles, hfinished⟩ := h.finished
  obtain ⟨hcircuit, hhash, offset, zero, hinner⟩ := hgarbles.honest
  rw [← FreeXor.inputCount_congr hcircuit] at hin
  rw [← FreeXor.outputCount_congr hcircuit] at hout
  have hsource := hfinished.honest_input hin
  have htarget := hfinished.honest_output hout
  have hcore : c'.inner = inner := hfinished.inner
  rw [hinner.inputKeys, ← hcore] at hsource
  rw [hinner.outputKeys, ← hcore] at htarget
  rw [← hcore] at hinner
  obtain ⟨hinput, houtput, hreported, hreported'⟩ := hfinished.pinned
  refine ⟨⟨?_, ?_, hfinished.scheme, fun _ => hinner.garbled⟩, hinput, houtput, offset, zero, ?_⟩
  · rw [hcore, hcircuit]
  · rw [hcore, hhash]
  · refine ⟨⟨innerKeys, hinner⟩, hfinished.garbled, ?_, hsource, htarget, hreported, hreported'⟩
    rw [hfinished.keys, ← hinner.translation]

theorem Garbles.isSome_tables [Generator G] {c c' : Layered P G} {keys : KeyMaterial}
    (h : c.Garbles keys c') : c'.input.tables.isSome = c'.input.keysToBridge.isSome ∧
      c'.output.tables.isSome = c'.output.keysToBridge.isSome := by
  obtain ⟨_, _, _, _, hfinished⟩ := h.finished
  exact hfinished.isSome_tables

/-- Tables that were made for the pinned keys are missing where no keys are pinned. -/
theorem tables_eq_none_of_pinned {side : Side}
    (h : side.tables.isSome = side.keysToBridge.isSome) (hpinned : side.pinned = none) :
    side.tables = none := by
  rw [Side.keysToBridge, hpinned, ite_self] at h
  exact Option.isNone_iff_eq_none.1 (Option.isSome_eq_false_iff.1 h)

end

/-! ## A circuit with pinned keys -/

/-- The negation of one bit, without tables yet. -/
def newNegation : Layered (StreamGenerator .aesCounter) (StreamGenerator .aesCounter) where
  inner := { circuit := ⟨[1], [.not 0], [1]⟩, valid := by decide, generator := {} }
  scheme := .block
  generator := {}

/-- Two keys, with the bytes 0, 1, 2 … -/
def negationKeys : Bytes := (List.range 32).map UInt8.ofNat

/-- The negation of one bit, with the same two keys pinned on both sides. -/
def pinnedNegation : Layered (StreamGenerator .aesCounter) (StreamGenerator .aesCounter) :=
  { newNegation with
    input := { layered := true, pinned := some negationKeys }
    output := { layered := true, pinned := some negationKeys } }

theorem ready_pinnedNegation :
    pinnedNegation.input.Ready 1 16 ∧ pinnedNegation.output.Ready 1 16 := by
  have hready : ({ layered := true, pinned := some negationKeys } : Side).Ready 1 16 := by
    have hpin : ({} : Side).pin 1 16 negationKeys =
        .ok { layered := true, pinned := some negationKeys } := rfl
    exact (Side.ready_pin hpin).1
  exact ⟨hready, hready⟩

theorem garble_pinnedNegation : ∃ keys c',
    pinnedNegation.garble 7 (fun _ => true) = (.ok keys, c') ∧ c'.input.SentinelsDiffer .block ∧
      c'.output.SentinelsDiffer .block := by
  have hok : (pinnedNegation.garble 7 fun _ => true).1.toOption.isSome = true := by decide +kernel
  have hin : (pinnedNegation.garble 7 fun _ => true).2.input.SentinelsDiffer .block := by
    decide +kernel
  have hout : (pinnedNegation.garble 7 fun _ => true).2.output.SentinelsDiffer .block := by
    decide +kernel
  rcases h : pinnedNegation.garble 7 (fun _ => true) with ⟨e | keys, c'⟩
  · rw [h] at hok
    cases hok
  · rw [h] at hin hout
    exact ⟨keys, c', rfl, hin, hout⟩

end Layered

end Garbling
