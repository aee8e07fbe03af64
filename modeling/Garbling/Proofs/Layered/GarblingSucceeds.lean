-- Garbling with layers always succeeds. The inner circuit can always be
-- garbled, pinned keys have the lengths that identity gates ask for, and
-- a generator that was keyed answers as often as it is asked. Only a seed
-- can be refused, and only for its length.
import Garbling.Proofs.Layered.Consistency
import Garbling.Proofs.Layered.StreamSeeds

namespace Garbling

/-! ## Identity tables -/

namespace IdentityGate

variable {s : Scheme} {gate : UInt32}

theorem exists_row (hs : s.Shipped) (hsize : Block.size ≤ s.cipherSize) {key output : Bytes}
    (hlong : Block.size ≤ key.length) (hfits : key.length ≤ s.cipherSize)
    (houtput : output.length ≤ s.cipherSize) : ∃ bytes, row s gate key output = .ok bytes := by
  obtain ⟨m, hm⟩ := hs.exists_multiKey hlong hfits
  obtain ⟨payload, hpayload⟩ := hs.exists_encrypt hsize m ⟨gate⟩ houtput
  obtain ⟨sentinel, hsentinel⟩ := hs.exists_encrypt hsize m ⟨gate⟩
    (Nat.le_of_eq (Bytes.length_zeros s.cipherSize))
  have hk : keying s gate key = .ok { key := some m, tweak := some ⟨gate⟩ } :=
    bind_eq_ok.2 ⟨m, mapError_eq_ok.2 hm, rfl⟩
  refine ⟨payload ++ sentinel, bind_eq_ok.2 ⟨_, hk, ?_⟩⟩
  refine bind_eq_ok.2 ⟨payload, encryptBlock_eq_ok.2 hpayload, ?_⟩
  exact bind_eq_ok.2 ⟨sentinel, encryptBlock_eq_ok.2 hsentinel, rfl⟩

end IdentityGate

/-! ## Row orders -/

namespace RowOrder

variable {kind : StreamKind}

/-- The source of row orders never fails: if it is a generator, it has been keyed. -/
def Steady : RowOrder (StreamGenerator kind) → Prop
  | random _ => True
  | seeded generator => ∃ reader, generator = ⟨some reader⟩

theorem Steady.next {order : RowOrder (StreamGenerator kind)} (h : order.Steady) :
    ∃ zeroSecond rest, order.next = (.ok zeroSecond, rest) ∧ rest.Steady := by
  cases order with
  | random bits => exact ⟨_, _, rfl, trivial⟩
  | seeded generator =>
    obtain ⟨reader, rfl⟩ := h
    refine ⟨(kind.read reader 1).1.headD 0 % 2 == 1, .seeded ⟨some (kind.read reader 1).2⟩, ?_, ?_⟩
    · rw [RowOrder.next_seeded, StreamGenerator.draw_eq]
    · exact ⟨_, rfl⟩

end RowOrder

/-! ## Layers -/

namespace Layer

variable {s : Scheme} {source target : Keys} {wires : Nat}

/-- Two arrays of pairs between which a layer can always be garbled. -/
structure Bridgeable (s : Scheme) (wires : Nat) (source target : Keys) : Prop where
  sourceLength : source.bytes.length = 2 * wires * source.size
  targetLength : target.bytes.length = 2 * wires * target.size
  long : Block.size ≤ source.size
  sourceFits : source.size ≤ s.cipherSize
  targetFits : target.size ≤ s.cipherSize

theorem Bridgeable.exists_tableAt (h : Bridgeable s wires source target) (hs : s.Shipped)
    {position : Nat} (hposition : position < wires) (zeroSecond : Bool) :
    ∃ table, tableAt s source target position zeroSecond = .ok table := by
  have hsize := Nat.le_trans h.long h.sourceFits
  have hrow : ∀ bit, ∃ bytes, IdentityGate.row s (gateNumber position)
      (KeyArray.keyFor source.size source.bytes position bit)
      (KeyArray.keyFor target.size target.bytes position bit) = .ok bytes := by
    intro bit
    refine IdentityGate.exists_row hs hsize ?_ ?_ ?_
    · rw [KeyArray.length_keyFor h.sourceLength hposition]
      exact h.long
    · rw [KeyArray.length_keyFor h.sourceLength hposition]
      exact h.sourceFits
    · rw [KeyArray.length_keyFor h.targetLength hposition]
      exact h.targetFits
  obtain ⟨row0, hrow0⟩ := hrow false
  obtain ⟨row1, hrow1⟩ := hrow true
  refine ⟨if zeroSecond then row1 ++ row0 else row0 ++ row1, ?_⟩
  rw [tableAt, Keys.pairAt?_eq_some h.sourceLength hposition,
    Keys.pairAt?_eq_some h.targetLength hposition]
  simp only [inRange, ok_bind, IdentityGate.table_eq]
  exact bind_eq_ok.2 ⟨row0, hrow0, bind_eq_ok.2 ⟨row1, hrow1, rfl⟩⟩

variable {kind : StreamKind} {order : RowOrder (StreamGenerator kind)}

theorem exists_tablesAt (ho : order.Steady) {positions : List Nat}
    (h : ∀ position ∈ positions, ∀ zeroSecond,
      ∃ table, tableAt s source target position zeroSecond = .ok table) :
    ∃ tables rest, tablesAt s source target order positions = (.ok tables, rest) ∧
      rest.Steady := by
  induction positions generalizing order with
  | nil => exact ⟨[], order, rfl, ho⟩
  | cons position positions ih =>
    obtain ⟨zeroSecond, next, hnext, ho⟩ := ho.next
    obtain ⟨table, htable⟩ := h position List.mem_cons_self zeroSecond
    obtain ⟨tables, rest, htables, hrest⟩ :=
      ih ho fun position hmem => h position (List.mem_cons_of_mem _ hmem)
    refine ⟨table :: tables, rest, ?_, hrest⟩
    simp only [tablesAt, hnext, htable, htables]

theorem Bridgeable.exists_garble (h : Bridgeable s wires source target) (hs : s.Shipped)
    (ho : order.Steady) : ∃ tables rest,
      garble s wires source target order = (.ok tables, rest) ∧ rest.Steady := by
  obtain ⟨tables, rest, htables, hrest⟩ := exists_tablesAt ho fun position hmem =>
    h.exists_tableAt hs (List.mem_range.1 hmem)
  refine ⟨⟨tables.map some⟩, rest, ?_, hrest⟩
  have hlengths : (do
      KeyArray.checkLength source.bytes (2 * wires * source.size)
      KeyArray.checkLength target.bytes (2 * wires * target.size)) = .ok () :=
    bind_eq_ok.2 ⟨(), KeyArray.checkLength_eq_ok.2 h.sourceLength,
      KeyArray.checkLength_eq_ok.2 h.targetLength⟩
  unfold garble
  rw [hlengths, htables]
  rfl

end Layer

/-! ## The whole circuit -/

namespace Layered

variable {kind : StreamKind} {G : Type} {c : Layered (StreamGenerator kind) G}

theorem exists_layerTables {order : RowOrder (StreamGenerator kind)} (ho : order.Steady)
    {keys : Option Bytes} {garble : Bytes → Except Error Tables ×
      RowOrder (StreamGenerator kind)}
    (h : ∀ pinned ∈ keys, ∃ tables rest, garble pinned = (.ok tables, rest) ∧ rest.Steady) :
    ∃ tables rest, layerTables order keys garble = (.ok tables, rest) ∧ rest.Steady := by
  cases keys with
  | none => exact ⟨none, order, rfl, ho⟩
  | some pinned =>
    obtain ⟨tables, rest, hgarble, hrest⟩ := h pinned rfl
    refine ⟨some tables, rest, ?_, hrest⟩
    rw [layerTables, hgarble]
    rfl

/-- A circuit whose layers can always be garbled: it has a scheme of this library with blocks
that inner keys fit into, and sound sides. -/
structure Garblable (c : Layered (StreamGenerator kind) G) : Prop where
  shipped : c.scheme.Shipped
  size : FreeXor.keySize ≤ c.scheme.cipherSize
  sound : c.Sound

theorem Garblable.exists_finish (h : c.Garblable) {inner : KeyMaterial}
    (hinput : inner.inputKeys.length = 2 * c.inner.inputCount * FreeXor.keySize)
    (houtput : inner.outputKeys.length = 2 * c.inner.outputCount * FreeXor.keySize)
    {order : RowOrder (StreamGenerator kind)} (ho : order.Steady) :
    ∃ keys, (c.finish inner order).1 = .ok keys := by
  have hin : ∃ tables rest, c.inputTables inner order = (.ok tables, rest) ∧ rest.Steady := by
    refine exists_layerTables ho fun pinned hmem => ?_
    rw [h.sound.input.keysToBridge] at hmem
    exact Layer.Bridgeable.exists_garble ⟨h.sound.input.length pinned hmem, hinput, h.size,
      Nat.le_refl _, h.size⟩ h.shipped ho
  obtain ⟨inputTables, rest, hin, ho⟩ := hin
  have hout : ∃ tables rest', c.outputTables inner rest = (.ok tables, rest') ∧ rest'.Steady := by
    refine exists_layerTables ho fun pinned hmem => ?_
    rw [h.sound.output.keysToBridge] at hmem
    exact Layer.Bridgeable.exists_garble ⟨houtput, h.sound.output.length pinned hmem,
      Nat.le_refl _, h.size, Nat.le_refl _⟩ h.shipped ho
  obtain ⟨outputTables, rest', hout, _⟩ := hout
  unfold finish
  simp only [hin, outputTables_input, hout]
  exact ⟨_, rfl⟩

/-- After a garbling of the inner circuit, the layers can be garbled as well. -/
theorem Garblable.exists_finish_inner (h : c.Garblable) {keys : KeyMaterial} {inner : FreeXor G}
    (generator : StreamGenerator kind) (hinner : ∃ offset zero, inner.Honest keys offset zero)
    (hcircuit : inner.circuit = c.inner.circuit) {order : RowOrder (StreamGenerator kind)}
    (ho : order.Steady) :
    ∃ keys', (({ c with generator, inner } : Layered (StreamGenerator kind) G).finish keys
      order).1 = .ok keys' := by
  obtain ⟨offset, zero, honest⟩ := hinner
  have hsound : ({ c with generator, inner } : Layered (StreamGenerator kind) G).Sound := by
    refine ⟨?_, ?_⟩
    · show c.input.Sound inner.inputCount _
      rw [FreeXor.inputCount_congr hcircuit]
      exact h.sound.input
    · show c.output.Sound inner.outputCount _
      rw [FreeXor.outputCount_congr hcircuit]
      exact h.sound.output
  refine Garblable.exists_finish (c := { c with generator, inner }) ⟨h.shipped, h.size, hsound⟩
    ?_ ?_ ho
  · rw [honest.inputKeys, FreeXor.length_inputPairs]
  · rw [honest.outputKeys, FreeXor.length_outputPairs]

theorem Garblable.exists_garble (h : c.Garblable) (key : Block) (rows : Nat → Bool) :
    ∃ keys, (c.garble key rows).1 = .ok keys := by
  obtain ⟨keys, inner, hinner⟩ := FreeXor.exists_garble c.inner key
  obtain ⟨hcircuit, _, honest⟩ := FreeXor.honest_of_garble hinner
  unfold garble
  rw [hinner]
  exact h.exists_finish_inner c.generator honest hcircuit trivial

/-- Garbling from a seed succeeds if both generators take a seed of its length. Otherwise it
says so, and has changed nothing but the generator of the layers. -/
theorem Garblable.garbleSeeded {kind' : StreamKind}
    {c : Layered (StreamGenerator kind) (StreamGenerator kind')} (h : c.Garblable) (seed : Bytes) :
    if seed.length = kind.seedSize ∧ seed.length = kind'.seedSize then
      ∃ keys, (c.garbleSeeded seed).1 = .ok keys
    else
      ∃ cause generator, c.garbleSeeded seed =
        (.error (.invalidSeed cause), { c with generator }) := by
  by_cases hlen : seed.length = kind.seedSize
  · obtain ⟨left, hsteps⟩ := garbleSeeded_of_length c hlen
    have hinnerLen := kind.length_innerSeed seed
    by_cases hlen' : seed.length = kind'.seedSize
    · rw [if_pos ⟨hlen, hlen'⟩]
      obtain ⟨keys, inner, hinner⟩ :=
        FreeXor.exists_garbleSeeded c.inner (hinnerLen.trans hlen')
      obtain ⟨hcircuit, _, honest⟩ := FreeXor.honest_of_garbleSeeded hinner
      rw [hsteps, hinner]
      exact h.exists_finish_inner _ honest hcircuit ⟨_, rfl⟩
    · rw [if_neg fun hboth => hlen' hboth.2, hsteps,
        FreeXor.garbleSeeded_of_length_ne c.inner (by rwa [hinnerLen])]
      exact ⟨_, left, rfl⟩
  · rw [if_neg fun hboth => hlen hboth.1, garbleSeeded_of_length_ne c hlen]
    exact ⟨_, c.generator, rfl⟩

end Layered

end Garbling
