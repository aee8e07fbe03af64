-- What comes before a garbling: a new instance, then pinned keys and
-- garblings that went before, in any order. The sides stay ready for a
-- garbling, with the keys that were pinned last.
import Garbling.Proofs.Layered.HonestGarbling

namespace Garbling.Layered

variable {P G : Type}

/-! ## New instances -/

theorem ofInner_eq_ok {inner : FreeXor G} {scheme : Scheme} {generator : P} {c : Layered P G} :
    ofInner inner scheme generator = .ok c ↔
      FreeXor.keySize ≤ scheme.cipherSize ∧ c = { inner, scheme, generator } := by
  unfold ofInner
  split
  · simp [*, eq_comm]
  · simp [*]

/-- `c` is a new instance over a circuit with a scheme. -/
def IsNew (c : Layered P G) (circuit : Circuit) (scheme : Scheme) : Prop :=
  ∃ generator inner layers, FreeXor.ofCircuit circuit generator = .ok inner ∧
    ofInner inner scheme layers = .ok c

theorem IsNew.eq {c : Layered P G} {circuit : Circuit} {scheme : Scheme}
    (h : c.IsNew circuit scheme) : c.inner.circuit = circuit ∧ c.inner.hash = fixedPairHash ∧
      c.scheme = scheme ∧ c.input = {} ∧ c.output = {} := by
  obtain ⟨generator, inner, layers, hinner, hc⟩ := h
  obtain ⟨_, rfl⟩ := ofInner_eq_ok.1 hc
  unfold FreeXor.ofCircuit at hinner
  split at hinner
  · cases hinner
    exact ⟨rfl, rfl, rfl, rfl, rfl⟩
  · cases hinner

/-- A new instance has no tables, whether inside or outside. -/
theorem IsNew.not_garbled {c : Layered P G} {circuit : Circuit} {scheme : Scheme}
    (h : c.IsNew circuit scheme) : c.garbled = false ∧ c.inner.garbled = false := by
  obtain ⟨generator, inner, layers, hinner, hc⟩ := h
  obtain ⟨_, rfl⟩ := ofInner_eq_ok.1 hc
  unfold FreeXor.ofCircuit at hinner
  split at hinner
  · cases hinner
    exact ⟨rfl, rfl⟩
  · cases hinner

/-- After any operations, an instance has the circuit and the scheme that it was made with, and
it is garbled if and only if it has been supplied with tables. -/
theorem IsNew.run [Generator P] [Generator G] {c : Layered P G} {circuit : Circuit}
    {scheme : Scheme} (h : c.IsNew circuit scheme) (ops : List Operation) :
    (c.run ops).inner.circuit = circuit ∧ (c.run ops).inner.hash = fixedPairHash ∧
      (c.run ops).scheme = scheme ∧ ((c.run ops).garbled = true ↔ c.Supplied ops) := by
  obtain ⟨hcircuit, hhash, hscheme, _, _⟩ := h.eq
  obtain ⟨hg, _⟩ := h.not_garbled
  obtain ⟨hfollows, _, hgarbled⟩ := run_keeps (c := c) (by simp [hg]) ops
  refine ⟨hfollows.circuit.trans hcircuit, hfollows.hash.trans hhash,
    hfollows.scheme.trans hscheme, ?_⟩
  simpa [hg] using hgarbled

theorem valid_wire : Circuit.Valid ⟨[1], [], [0]⟩ := by
  decide

/-- A new instance over a circuit that gives its one input bit back. -/
def newWire : Layered (StreamGenerator .aesCounter) (StreamGenerator .aesCounter) where
  inner := { circuit := ⟨[1], [], [0]⟩, valid := valid_wire, generator := {} }
  scheme := .block
  generator := {}

theorem isNew_newNegation : newNegation.IsNew ⟨[1], [.not 0], [1]⟩ .block := ⟨{}, _, {}, rfl, rfl⟩

theorem isNew_newWire : newWire.IsNew ⟨[1], [], [0]⟩ .block := ⟨{}, _, {}, rfl, rfl⟩

/-! ## Ready sides -/

/-- The sides of `c'` are those of `c`, apart from their tables. -/
structure KeepsSides (c c' : Layered P G) : Prop where
  input : c'.input = { c.input with tables := c'.input.tables }
  output : c'.output = { c.output with tables := c'.output.tables }

/-- Both sides are ready to be garbled, with the given keys pinned. -/
structure ReadyWith (c : Layered P G) (inputKeys outputKeys : Option Bytes) : Prop where
  input : c.input.Ready c.inner.inputCount c.scheme.cipherSize
  output : c.output.Ready c.inner.outputCount c.scheme.cipherSize
  inputPinned : c.input.pinned = inputKeys
  outputPinned : c.output.pinned = outputKeys

section

variable {c c' : Layered P G} {inputKeys outputKeys : Option Bytes}

theorem readyWith_new (hin : c.input = {}) (hout : c.output = {}) : c.ReadyWith none none := by
  refine ⟨?_, ?_, ?_, ?_⟩
  · rw [hin]
    exact Side.ready_new _ _
  · rw [hout]
    exact Side.ready_new _ _
  · rw [hin]
  · rw [hout]

theorem ReadyWith.setInputKeys {keys : Bytes} (h : c.ReadyWith inputKeys outputKeys)
    (hset : c.setInputKeys keys = .ok c') : c'.ReadyWith (some keys) outputKeys := by
  obtain ⟨_, input, hpin, rfl⟩ := of_setInputKeys hset
  obtain ⟨hready, hpinned⟩ := Side.ready_pin hpin
  exact ⟨hready, h.output, hpinned, h.outputPinned⟩

theorem ReadyWith.setOutputKeys {keys : Bytes} (h : c.ReadyWith inputKeys outputKeys)
    (hset : c.setOutputKeys keys = .ok c') : c'.ReadyWith inputKeys (some keys) := by
  obtain ⟨_, output, hpin, rfl⟩ := of_setOutputKeys hset
  obtain ⟨hready, hpinned⟩ := Side.ready_pin hpin
  exact ⟨h.input, hready, h.inputPinned, hpinned⟩

theorem ReadyWith.keep (h : c.ReadyWith inputKeys outputKeys) (hf : c.Follows c')
    (hk : c.KeepsSides c') : c'.ReadyWith inputKeys outputKeys := by
  refine ⟨?_, ?_, ?_, ?_⟩
  · rw [hk.input, FreeXor.inputCount_congr hf.circuit, hf.scheme]
    exact ⟨h.input.layered, h.input.length, h.input.count⟩
  · rw [hk.output, FreeXor.outputCount_congr hf.circuit, hf.scheme]
    exact ⟨h.output.layered, h.output.length, h.output.count⟩
  · rw [hk.input]
    exact h.inputPinned
  · rw [hk.output]
    exact h.outputPinned

end

section

variable [Generator P]

theorem keepsSides_finish (c : Layered P G) (keys : KeyMaterial) (order : RowOrder P) :
    c.KeepsSides (c.finish keys order).2 := by
  unfold finish
  split
  · exact ⟨rfl, rfl⟩
  dsimp only
  split
  · exact ⟨rfl, rfl⟩
  · exact ⟨rfl, rfl⟩

theorem keepsSides_garble (c : Layered P G) (key : Block) (rows : Nat → Bool) :
    c.KeepsSides (c.garble key rows).2 := by
  unfold garble
  split
  · exact ⟨rfl, rfl⟩
  · rename_i keys inner _
    obtain ⟨hinput, houtput⟩ := keepsSides_finish { c with inner } keys (.random rows)
    exact ⟨hinput, houtput⟩

theorem keepsSides_garbleSeeded [Generator G] (c : Layered P G) (seed : Bytes) :
    c.KeepsSides (c.garbleSeeded seed).2 := by
  unfold garbleSeeded
  split
  · exact ⟨rfl, rfl⟩
  split
  · exact ⟨rfl, rfl⟩
  split
  · exact ⟨rfl, rfl⟩
  rename_i keys inner _
  split
  · exact ⟨rfl, rfl⟩
  · rename_i generator _
    obtain ⟨hinput, houtput⟩ :=
      keepsSides_finish { c with generator, inner } keys (.seeded generator)
    exact ⟨hinput, houtput⟩

/-! ## Pinning and garbling in any order -/

/-- The circuits that come from `start` by pinning keys, in any order, and by garbling, whatever
comes of it. The keys are those that were pinned last. -/
inductive Prepared [Generator G] (start : Layered P G) :
    Option Bytes → Option Bytes → Layered P G → Prop
  | new : Prepared start none none start
  | setInputKeys {inputKeys outputKeys keys c c'} (h : Prepared start inputKeys outputKeys c)
      (hset : c.setInputKeys keys = .ok c') : Prepared start (some keys) outputKeys c'
  | setOutputKeys {inputKeys outputKeys keys c c'} (h : Prepared start inputKeys outputKeys c)
      (hset : c.setOutputKeys keys = .ok c') : Prepared start inputKeys (some keys) c'
  | garble {inputKeys outputKeys c} (h : Prepared start inputKeys outputKeys c) (key : Block)
      (rows : Nat → Bool) : Prepared start inputKeys outputKeys (c.garble key rows).2
  | garbleSeeded {inputKeys outputKeys c} (h : Prepared start inputKeys outputKeys c)
      (seed : Bytes) : Prepared start inputKeys outputKeys (c.garbleSeeded seed).2

theorem Prepared.ready [Generator G] {start c : Layered P G} {inputKeys outputKeys : Option Bytes}
    (h : start.Prepared inputKeys outputKeys c) (hin : start.input = {})
    (hout : start.output = {}) : start.Follows c ∧ c.ReadyWith inputKeys outputKeys := by
  induction h with
  | new => exact ⟨.refl start, readyWith_new hin hout⟩
  | setInputKeys _ hset ih =>
    obtain ⟨hfollows, hready⟩ := ih
    exact ⟨hfollows.trans (follows_setInputKeys hset).1, hready.setInputKeys hset⟩
  | setOutputKeys _ hset ih =>
    obtain ⟨hfollows, hready⟩ := ih
    exact ⟨hfollows.trans (follows_setOutputKeys hset).1, hready.setOutputKeys hset⟩
  | @garble _ _ c _ key rows ih =>
    obtain ⟨hfollows, hready⟩ := ih
    have hgarble := (supplies_garble c key rows).follows
    exact ⟨hfollows.trans hgarble, hready.keep hgarble (keepsSides_garble c key rows)⟩
  | @garbleSeeded _ _ c _ seed ih =>
    obtain ⟨hfollows, hready⟩ := ih
    have hgarble := (supplies_garbleSeeded c seed).follows
    exact ⟨hfollows.trans hgarble, hready.keep hgarble (keepsSides_garbleSeeded c seed)⟩

/-- A garbling of a new instance with pinned keys is an honest one, over the same circuit. -/
theorem Prepared.honest [Generator G] {circuit : Circuit} {scheme : Scheme}
    {start c c' : Layered P G} (hstart : start.IsNew circuit scheme)
    {inputKeys outputKeys : Option Bytes} (hprepared : start.Prepared inputKeys outputKeys c)
    {keys : KeyMaterial} (hgarbles : c.Garbles keys c') :
    c'.inner.circuit = circuit ∧ c'.inner.hash = fixedPairHash ∧ c'.scheme = scheme ∧
      c'.input.pinned = inputKeys ∧ c'.output.pinned = outputKeys ∧
      ∃ offset zero, c'.Honest keys offset zero := by
  obtain ⟨hcircuit, hhash, hscheme, hinput, houtput⟩ := hstart.eq
  obtain ⟨hfollows, hready, hready', hpinned, hpinned'⟩ := hprepared.ready hinput houtput
  obtain ⟨hfollows', hkept, hkept', honest⟩ := hgarbles.honest hready hready'
  have hall := hfollows.trans hfollows'
  exact ⟨hall.circuit.trans hcircuit, hall.hash.trans hhash, hall.scheme.trans hscheme,
    hkept.trans hpinned, hkept'.trans hpinned', honest⟩

end

end Garbling.Layered
