-- What a commitment binds. An instance without layers that received tables
-- with the committed bytes of a garbling, from wherever they are, evaluates
-- and translates as the garbled circuit does, or fails. The garbled circuit
-- itself may have kept a layer without keys, and then evaluates nothing.
import Garbling.Proofs.FreeXor.Commitment
import Garbling.Proofs.Layered.SeedCheck

namespace Garbling

/-- A layer without keys is still there after a garbling, and has no tables. -/
theorem Side.Keyless.of_garbled {side made : Side} (h : side.Keyless)
    (hkeeps : made = { side with tables := made.tables })
    (htables : made.tables.isSome = made.keysToBridge.isSome) :
    made.layered = true ∧ made.tables = none := by
  have ⟨hlayered, hnone⟩ : made.Keyless := by
    rw [hkeeps]
    exact h
  exact ⟨hlayered, Layered.tables_eq_none_of_pinned htables hnone⟩

namespace Layered

variable {P G P' G' : Type}

/-- Without layers, evaluation is that of the inner circuit. -/
theorem compute_eq_ok_of_unlayered {c : Layered P G} (hin : c.input.layered = false)
    (hout : c.output.layered = false) {keys : Bytes} {output : LayeredOutput} :
    c.compute keys = .ok output ↔ c.garbled = true ∧
      ∃ inner, c.inner.compute keys = .ok inner ∧ output = ⟨inner, inner⟩ := by
  have hsize : c.inputKeySize = FreeXor.keySize := by
    rw [inputKeySize, sideKeySize, hin]
    rfl
  have hpass (side : Side) (hside : side.layered = false) (wires : Nat) (bytes : Bytes)
      (m n : Nat) : side.compute c.scheme wires bytes m n = .ok bytes := by
    rw [Side.compute, Side.active_eq_ok_none.2 hside]
  have hsteps (hg : c.garbled = true) (hlen : keys.length = c.inner.inputCount * FreeXor.keySize) :
      c.compute keys = .ok output ↔
        ∃ inner, c.inner.compute keys = .ok inner ∧ output = ⟨inner, inner⟩ := by
    rw [compute_eq hg (by rw [hsize]; exact hlen), hpass _ hin, ok_bind, bind_eq_ok]
    refine exists_congr fun inner => and_congr_right fun _ => ?_
    rw [hpass _ hout, ok_bind, pure_eq_ok]
    exact eq_comm
  constructor
  · intro h
    obtain ⟨hg, hlen⟩ := guards_of_compute h
    rw [hsize] at hlen
    exact ⟨hg, (hsteps hg hlen).1 h⟩
  · rintro ⟨hg, inner, hinner, houtput⟩
    exact (hsteps hg (FreeXor.compute_eq_ok.1 hinner).2.1).2 ⟨inner, hinner, houtput⟩

/-- An honest garbling and another instance over the same circuit, both without layers. If both
commit to the same bytes, whatever the other one evaluates and translates successfully, the
honest garbling does, with the same results. -/
theorem Honest.binds {c : Layered P G} {e : Layered P' G'} {keys : KeyMaterial} {offset : Block}
    {zero : Nat → Block} (h : c.Honest keys offset zero)
    (hlayers : c.input.layered = false ∧ c.output.layered = false)
    (hlayers' : e.input.layered = false ∧ e.output.layered = false)
    (hcircuit : e.inner.circuit = c.inner.circuit) (hhash : e.inner.hash = c.inner.hash)
    (hslots : e.inner.tables.size = c.inner.circuit.gates.length)
    (hbytes : e.committedBytes = c.committedBytes) {input bits : Bytes} {output : LayeredOutput}
    (hcompute : e.compute input = .ok output) (htranslate : e.translate output = .ok bits) :
    c.compute input = .ok output ∧ c.translate output = .ok bits := by
  obtain ⟨_, hinner⟩ := h.inner
  obtain ⟨_, inner, hrun, rfl⟩ := (compute_eq_ok_of_unlayered hlayers'.1 hlayers'.2).1 hcompute
  obtain ⟨hrun', hbits⟩ := hinner.binds hcircuit hhash hslots hbytes hrun htranslate
  exact ⟨(compute_eq_ok_of_unlayered hlayers.1 hlayers.2).2 ⟨h.garbled, inner, hrun', rfl⟩, hbits⟩

/-- Inner tables alone leave no layers. -/
theorem of_setTables_inner {e received : Layered P G} {tables : Tables}
    (hset : e.setTables { inner := tables } = (.ok (), received)) :
    (received.input.layered = false ∧ received.output.layered = false) ∧
      e.Follows received ∧ received.inner.tables.size = e.inner.circuit.gates.length := by
  obtain ⟨haccepts, hreceived⟩ := setTables_eq_ok.1 hset
  rw [hreceived]
  exact ⟨⟨rfl, rfl⟩, ⟨rfl, rfl, rfl, fun _ => rfl⟩, haccepts.inner⟩

section

variable [Generator P] [Generator G] {c made : Layered P G} {keys : KeyMaterial}

/-- A layer without keys has no tables after a garbling, and no evaluation succeeds. -/
theorem Garbles.compute_ne_ok (h : c.Garbles keys made)
    (hkeyless : c.input.Keyless ∨ c.output.Keyless) (input : Bytes) (output : LayeredOutput) :
    made.compute input ≠ .ok output := by
  intro hcompute
  obtain ⟨_, hkeeps⟩ := h.follows
  obtain ⟨hin, hout⟩ := h.isSome_tables
  obtain ⟨⟨_, hinput⟩, _, houtput⟩ := sides_of_compute hcompute
  rcases hkeyless with hkeyless | hkeyless
  · obtain ⟨hlayered, htables⟩ := hkeyless.of_garbled hkeeps.input hin
    rw [Side.compute_eq_error hlayered htables] at hinput
    cases hinput
  · obtain ⟨hlayered, htables⟩ := hkeyless.of_garbled hkeeps.output hout
    rw [Side.compute_eq_error hlayered htables] at houtput
    cases houtput

/-- A circuit without pinned keys is garbled, after any operations. Another instance over the
circuit has no layers, and any inner tables and any translation table. Both commit to the same
bytes. If the garbled circuit has no layer left over, whatever the other instance evaluates and
translates successfully, the garbled circuit does, with the same results. If it has one, then no
evaluation of the garbled circuit succeeds. -/
theorem committed_bytes_bind_evaluation_unless_a_layer_is_left [Generator P'] [Generator G']
    {circuit : Circuit} {scheme scheme' : Scheme} {start : Layered P G} {start' : Layered P' G'}
    (hstart : start.IsNew circuit scheme) (hstart' : start'.IsNew circuit scheme')
    {ops ops' : List Operation} (hin : (start.run ops).input.pinned = none)
    (hout : (start.run ops).output.pinned = none) (hgarbles : (start.run ops).Garbles keys made)
    {tables : Tables} {received : Layered P' G'}
    (hset : (start'.run ops').setTables { inner := tables } = (.ok (), received))
    {translation : Bytes}
    (hbytes : (received.setTranslation translation).committedBytes = made.committedBytes) :
    ((start.run ops).input.layered = false → (start.run ops).output.layered = false →
      ∀ input output bits, (received.setTranslation translation).compute input = .ok output →
        (received.setTranslation translation).translate output = .ok bits →
        made.compute input = .ok output ∧ made.translate output = .ok bits) ∧
    ((start.run ops).input.layered = true ∨ (start.run ops).output.layered = true →
      ∀ input output, made.compute input ≠ .ok output) := by
  refine ⟨?_, fun hlayered => hgarbles.compute_ne_ok ?_⟩
  · intro hinput houtput input output bits hcompute htranslate
    obtain ⟨hcircuit, hhash, _⟩ := hstart.run ops
    obtain ⟨hcircuit', hhash', _⟩ := hstart'.run ops'
    obtain ⟨hlayers', hfollows', hslots⟩ := of_setTables_inner hset
    have hsound := hstart.sound.run ops
    obtain ⟨hfollows, _, _, offset, zero, honest⟩ := hgarbles.honest
      (hsound.input.ready fun h => by rw [h.1] at hinput; cases hinput)
      (hsound.output.ready fun h => by rw [h.1] at houtput; cases houtput)
    obtain ⟨_, hkeeps⟩ := hgarbles.follows
    have hlayers : made.input.layered = false ∧ made.output.layered = false := by
      rw [hkeeps.input, hkeeps.output]
      exact ⟨hinput, houtput⟩
    have hmade : made.inner.circuit = circuit := hfollows.circuit.trans hcircuit
    refine honest.binds (e := received.setTranslation translation)
      hlayers hlayers' ?_ ?_ ?_ hbytes hcompute htranslate
    · exact (hfollows'.circuit.trans hcircuit').trans hmade.symm
    · exact (hfollows'.hash.trans hhash').trans (hfollows.hash.trans hhash).symm
    · rw [hmade, ← hcircuit']
      exact hslots
  · rcases hlayered with hlayered | hlayered
    · exact .inl ⟨hlayered, hin⟩
    · exact .inr ⟨hlayered, hout⟩

end

/-! ## Bytes that say less than the tables -/

/-- The garbled negation has no table for its gate. An empty one in its place is not among the
committed bytes. -/
theorem negation_with_an_empty_table_is_bound : ∃ keys made received,
    newNegation.Garbles keys made ∧
    newNegation.setTables { inner := ⟨[some []]⟩ } = (.ok (), received) ∧
    (received.setTranslation [0]).committedBytes = made.committedBytes ∧
    made.compute (Bytes.zeros 16) = .ok ⟨Bytes.zeros 16, Bytes.zeros 16⟩ ∧
    made.translate ⟨Bytes.zeros 16, Bytes.zeros 16⟩ = .ok [0] := by
  obtain ⟨keys, made, hgarble, hbytes⟩ : ∃ keys made,
      newNegation.garbleSeeded (Bytes.zeros 16) = (.ok keys, made) ∧ made.committedBytes = [0] :=
    committedBytes_of_garbleSeeded (by decide +kernel)
  obtain ⟨received, hset⟩ : ∃ received,
      (newNegation.run []).setTables { inner := ⟨[some []]⟩ } = (.ok (), received) := ⟨_, rfl⟩
  have hgarbles : (newNegation.run []).Garbles keys made := .seeded _ hgarble
  have hsame : (received.setTranslation [0]).committedBytes = made.committedBytes := by
    rw [hbytes]
    cases hset
    rfl
  obtain ⟨hbinds, _⟩ := committed_bytes_bind_evaluation_unless_a_layer_is_left isNew_newNegation
    isNew_newNegation rfl rfl hgarbles hset hsame
  obtain ⟨hcompute, htranslate⟩ := hbinds rfl rfl (Bytes.zeros 16)
    ⟨Bytes.zeros 16, Bytes.zeros 16⟩ [0] (by cases hset; rfl) (by cases hset; rfl)
  exact ⟨keys, made, received, hgarbles, hset, hsame, hcompute, htranslate⟩

/-- A circuit that has received tables for its input side is garbled again, without pinned keys.
A new instance takes over what it commits to, and evaluates and translates a key. The garbled
circuit has kept the input layer, and says that it is not garbled. -/
theorem wire_with_a_layer_left_does_not_evaluate_what_it_commits_to : ∃ keys made received,
    newWire.run [.setTables foreignTables] = receivedWire ∧ receivedWire.input.pinned = none ∧
    receivedWire.output.pinned = none ∧
    receivedWire.garbleSeeded (Bytes.zeros 16) = (.ok keys, made) ∧
    newWire.setTables { inner := ⟨[]⟩ } = (.ok (), received) ∧
    (received.setTranslation [1]).committedBytes = made.committedBytes ∧
    (received.setTranslation [1]).compute (Bytes.zeros 16) =
      .ok ⟨Bytes.zeros 16, Bytes.zeros 16⟩ ∧
    (received.setTranslation [1]).translate ⟨Bytes.zeros 16, Bytes.zeros 16⟩ = .ok [1] ∧
    made.compute (Bytes.zeros 16) = .error .notGarbled := by
  obtain ⟨keys, made, hgarble, hbytes⟩ : ∃ keys made,
      receivedWire.garbleSeeded (Bytes.zeros 16) = (.ok keys, made) ∧ made.committedBytes = [1] :=
    committedBytes_of_garbleSeeded (by decide +kernel)
  have hgarbles : receivedWire.Garbles keys made := .seeded _ hgarble
  obtain ⟨hfollows, hkeeps⟩ := hgarbles.follows
  have hkeyless : receivedWire.input.Keyless := ⟨rfl, rfl⟩
  obtain ⟨hlayered, htables⟩ := hkeyless.of_garbled hkeeps.input hgarbles.isSome_tables.1
  obtain ⟨_, _, _, _, hfinished⟩ := hgarbles.finished
  refine ⟨keys, made, _, rfl, rfl, rfl, hgarble, rfl, hbytes.symm, rfl, rfl, ?_⟩
  refine compute_eq_notGarbled hfinished.garbled hlayered htables ?_
  rw [inputKeySize_of_layered hlayered, hfollows.scheme, FreeXor.inputCount, hfollows.circuit]
  rfl

end Layered

end Garbling
