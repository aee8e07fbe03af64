-- The fields of a structure may come in any order, and between fields with
-- other names. The object of a gate is no structure: its one field names
-- the kind of the gate, and with any other number of fields it is refused.
import Garbling.Proofs.Json.Faithful

namespace Garbling.Json.Document

variable {α β : Type}

/-! ## Fields in any order -/

/-- The known fields in any order, and between them any number of fields with other names. -/
def Rearranged (known fields : List (List UInt16 × Json)) : Prop :=
  ∃ extra, fields.Perm (known ++ extra) ∧
    ∀ field ∈ extra, wellFormed field.1 = true ∧ field.1 ∉ known.map Prod.fst

/-- The names and the values of the fields of an object. -/
def fieldsOf (fields : List (String × Json)) : List (List UInt16 × Json) :=
  fields.map fun (name, value) => (unitsOf name, value)

theorem Rearranged.refl (known : List (List UInt16 × Json)) : Rearranged known known :=
  ⟨[], by rw [List.append_nil], nofun⟩

section

variable {known : List (String × Json)} {fields : List (List UInt16 × Json)}

theorem filter_fieldsOf (hnames : ((known.map Prod.fst).map unitsOf).Nodup) {name : String}
    {value : Json} (hmem : (name, value) ∈ known) :
    (fieldsOf known).filter (·.1 == unitsOf name) = [(unitsOf name, value)] := by
  induction known with
  | nil => cases hmem
  | cons field known ih =>
    obtain ⟨hfirst, hrest⟩ := List.nodup_cons.1 hnames
    have hmapped : ∀ {entry}, entry ∈ known → unitsOf entry.1 ∈ (known.map Prod.fst).map unitsOf :=
      fun hentry => List.mem_map_of_mem (List.mem_map_of_mem hentry)
    rw [fieldsOf, List.map_cons, List.filter_cons]
    rcases List.mem_cons.1 hmem with rfl | hmem
    · rw [if_pos (beq_self_eq_true _), List.cons.injEq]
      refine ⟨rfl, List.filter_eq_nil_iff.2 fun other hother => ?_⟩
      obtain ⟨entry, hentry, rfl⟩ := List.mem_map.1 hother
      rw [beq_iff_eq]
      exact fun hname => hfirst (hname ▸ hmapped hentry)
    · rw [if_neg]
      · exact ih hrest hmem
      · rw [beq_iff_eq]
        rintro hname
        have hmapped := hmapped hmem
        rw [← show unitsOf field.1 = unitsOf name from hname] at hmapped
        exact hfirst hmapped

/-- The field with a name is found, wherever it stands. -/
theorem Rearranged.field? (h : Rearranged (fieldsOf known) fields)
    (hnames : ((known.map Prod.fst).map unitsOf).Nodup) {name : String} {value : Json}
    (hmem : (name, value) ∈ known) : Document.field? fields name = some (some value) := by
  obtain ⟨extra, hperm, hextra⟩ := h
  have hknown : (unitsOf name, value) ∈ fieldsOf known := List.mem_map.2 ⟨_, hmem, rfl⟩
  have hnone : extra.filter (·.1 == unitsOf name) = [] := by
    refine List.filter_eq_nil_iff.2 fun field hfield => ?_
    rw [beq_iff_eq]
    rintro hname
    exact (hextra field hfield).2 (hname ▸ List.mem_map.2 ⟨_, hknown, rfl⟩)
  have hone := filter_fieldsOf hnames hmem
  have hfilter := hperm.filter (·.1 == unitsOf name)
  rw [List.filter_append, hnone, hone, List.append_nil, List.perm_singleton] at hfilter
  rw [Document.field?, hfilter]

/-- The known parts are read, and the other fields are passed over. -/
theorem Rearranged.parts? (h : Rearranged (fieldsOf known) fields)
    (hnames : ((known.map Prod.fst).map unitsOf).Nodup) :
    Document.parts? (known.map Prod.fst) (.object fields) =
      some (known.map fun field => some field.2) := by
  have hwellFormed : ∀ field ∈ fields, wellFormed field.1 = true := by
    obtain ⟨extra, hperm, hextra⟩ := h
    intro field hfield
    rcases List.mem_append.1 (hperm.mem_iff.1 hfield) with hknown | hother
    · obtain ⟨_, _, rfl⟩ := List.mem_map.1 hknown
      exact wellFormed_unitsOf _
    · exact (hextra field hother).1
  rw [Document.parts?, if_pos (List.all_eq_true.2 hwellFormed), List.mapM_map]
  exact mapM_some fun field hfield => h.field? hnames hfield

end

/-! ## Structures -/

/-- An object with these fields stands for the value, whatever their order and whatever else is in
the object. -/
def Tolerates (d : Document α) (known : List (String × Json)) (a : α) : Prop :=
  ∀ fields, Rearranged (fieldsOf known) fields → d.decode? (.object fields) = some a

/-- A document of a structure is faithful if its fields can be printed and it tolerates them. -/
theorem faithful_of_tolerates {d : Document α} {fits : α → Prop} {known : α → List (String × Json)}
    (hencode : ∀ a, d.encode a = objectOf (known a))
    (hprintable : ∀ a, ∀ field ∈ known a, field.2.Printable)
    (htolerates : ∀ a, fits a → d.Tolerates (known a) a) : d.Faithful fits := by
  constructor
  · intro a
    rw [hencode]
    refine .object fun field hfield => ?_
    obtain ⟨named, hnamed, rfl⟩ := List.mem_map.1 hfield
    exact hprintable a named hnamed
  · intro a ha
    rw [hencode]
    exact htolerates a ha _ (.refl _)

/-- The fields of tables with layers. -/
def layeredFields (t : LayeredTables) : List (String × Json) :=
  [("inner", tables.encode t.inner), ("input", (optional tables).encode t.input),
    ("output", (optional tables).encode t.output)]

theorem tolerates_layeredTables (t : LayeredTables) : layeredTables.Tolerates (layeredFields t) t := by
  intro fields h
  have hparts := h.parts? (by decide : (["inner", "input", "output"].map unitsOf).Nodup)
  have hinner := faithful_tables.decode t.inner trivial
  have hside := fun side => faithful_optional_tables.decode side trivial
  simp only [layeredFields, List.map_cons, List.map_nil] at hparts
  simp only [layeredTables, hparts, required?, omissible?, hinner, hside, Option.bind_eq_bind,
    Option.bind_some]
  rfl

/-- The fields of the keys that a garbling reports. -/
def keyFields (k : KeyMaterial) : List (String × Json) :=
  [("all_input_keys", bytes.encode k.inputKeys), ("all_output_keys", bytes.encode k.outputKeys),
    ("translation_table", bytes.encode k.translation)]

theorem tolerates_keyMaterial (k : KeyMaterial) : keyMaterial.Tolerates (keyFields k) k := by
  intro fields h
  have hparts := h.parts?
    (by decide : (["all_input_keys", "all_output_keys", "translation_table"].map unitsOf).Nodup)
  have hbytes := fun bs => faithful_bytes.decode bs trivial
  simp only [keyFields, List.map_cons, List.map_nil] at hparts
  simp only [keyMaterial, hparts, required?, hbytes, Option.bind_eq_bind, Option.bind_some]
  rfl

theorem faithful_layeredTables : layeredTables.Faithful fun _ => True := by
  refine faithful_of_tolerates (fun _ => rfl) (fun t field hfield => ?_)
    fun t _ => tolerates_layeredTables t
  simp only [List.mem_cons, List.not_mem_nil, or_false] at hfield
  rcases hfield with rfl | rfl | rfl
  · exact faithful_tables.printable t.inner
  · exact faithful_optional_tables.printable t.input
  · exact faithful_optional_tables.printable t.output

theorem faithful_keyMaterial : keyMaterial.Faithful fun _ => True := by
  refine faithful_of_tolerates (fun _ => rfl) (fun k field hfield => ?_)
    fun k _ => tolerates_keyMaterial k
  simp only [List.mem_cons, List.not_mem_nil, or_false] at hfield
  rcases hfield with rfl | rfl | rfl <;> exact faithful_bytes.printable _

/-! ## Circuits -/

theorem faithful_operands : operands.Faithful fun p => IsWord p.1 ∧ IsWord p.2 := by
  have hwords := faithful_list faithful_word
  refine ⟨fun p => hwords.printable [p.1, p.2], fun p hp => ?_⟩
  have hdecode := hwords.decode [p.1, p.2] (by simpa using hp)
  simp only [operands, hdecode, Option.bind_eq_bind, Option.bind_some]

/-- The kind of a gate is the name of its one field. -/
theorem faithful_gate : gate.Faithful fun g => ∀ wire ∈ g.operands, IsWord wire := by
  have hone : ∀ {name : String} {value : Json}, value.Printable →
      (objectOf [(name, value)]).Printable := by
    intro name value hvalue
    refine .object fun field hfield => ?_
    rw [List.mem_map] at hfield
    obtain ⟨_, hmem, rfl⟩ := hfield
    rw [List.mem_singleton] at hmem
    subst hmem
    exact hvalue
  constructor
  · intro g
    cases g with
    | not x => exact hone (faithful_word.printable x)
    | xor x y | and x y | or x y => exact hone (faithful_operands.printable (x, y))
  · intro g hg
    have hpair : ∀ x y, (∀ wire ∈ [x, y], IsWord wire) →
        operands.decode? (operands.encode (x, y)) = some (x, y) := fun x y hxy =>
      faithful_operands.decode (x, y) ⟨hxy x (by simp), hxy y (by simp)⟩
    cases g with
    | not x =>
      have hx := faithful_word.decode x (hg x (by simp [Gate.operands]))
      simp only [gate, objectOf, List.map_cons, List.map_nil]
      rw [if_neg (by decide), if_neg (by decide), if_neg (by decide), if_pos trivial, hx]
      rfl
    | xor x y =>
      have hxy := hpair x y hg
      simp only [gate, objectOf, List.map_cons, List.map_nil]
      rw [if_pos trivial, hxy]
      rfl
    | and x y =>
      have hxy := hpair x y hg
      simp only [gate, objectOf, List.map_cons, List.map_nil]
      rw [if_neg (by decide), if_pos trivial, hxy]
      rfl
    | or x y =>
      have hxy := hpair x y hg
      simp only [gate, objectOf, List.map_cons, List.map_nil]
      rw [if_neg (by decide), if_neg (by decide), if_pos trivial, hxy]
      rfl

/-- All numbers in the circuit fit into 64 bits. -/
structure WordSized (c : Circuit) : Prop where
  inputs : ∀ count ∈ c.inputs, IsWord count
  gates : ∀ g ∈ c.gates, ∀ wire ∈ g.operands, IsWord wire
  outputs : ∀ wire ∈ c.outputs, IsWord wire

/-- The fields of a circuit. -/
def circuitFields (c : Circuit) : List (String × Json) :=
  [("input_gates", (list word).encode c.inputs), ("gates", (list gate).encode c.gates),
    ("output_gates", (list word).encode c.outputs)]

theorem tolerates_circuit {c : Circuit} (hc : WordSized c) :
    circuit.Tolerates (circuitFields c) c := by
  intro fields h
  have hparts := h.parts?
    (by decide : (["input_gates", "gates", "output_gates"].map unitsOf).Nodup)
  have hinputs := (faithful_list faithful_word).decode c.inputs hc.inputs
  have hgates := (faithful_list faithful_gate).decode c.gates hc.gates
  have houtputs := (faithful_list faithful_word).decode c.outputs hc.outputs
  simp only [circuitFields, List.map_cons, List.map_nil] at hparts
  simp only [circuit, hparts, required?, hinputs, hgates, houtputs, Option.bind_eq_bind,
    Option.bind_some]
  rfl

theorem faithful_circuit : circuit.Faithful WordSized := by
  refine faithful_of_tolerates (fun _ => rfl) (fun c field hfield => ?_)
    fun _ => tolerates_circuit
  simp only [List.mem_cons, List.not_mem_nil, or_false] at hfield
  rcases hfield with rfl | rfl | rfl
  · exact (faithful_list faithful_word).printable c.inputs
  · exact (faithful_list faithful_gate).printable c.gates
  · exact (faithful_list faithful_word).printable c.outputs

/-- A gate is refused unless its object has one field. -/
theorem gate_decode?_of_length_ne {fields : List (List UInt16 × Json)} (h : fields.length ≠ 1) :
    gate.decode? (.object fields) = none := by
  unfold gate
  dsimp only
  split
  · rename_i heq
    cases heq
    exact absurd rfl h
  · rfl

theorem mapM_eq_none {f : α → Option β} {l : List α} {a : α} (ha : a ∈ l) (h : f a = none) :
    l.mapM f = none := by
  induction l with
  | nil => cases ha
  | cons b l ih =>
    rw [List.mapM_cons]
    rcases List.mem_cons.1 ha with rfl | ha
    · rw [h]
      rfl
    · cases f b with
      | none => rfl
      | some c => simp [ih ha]

/-- A circuit is refused if the object of one of its gates has another number of fields. -/
theorem circuit_read?_of_length_ne {text : String} {fields tag : List (List UInt16 × Json)}
    {items : List Json} (hparse : parse? text.toList = some (.object fields))
    (hgates : (unitsOf "gates", .list items) ∈ fields) (htag : .object tag ∈ items)
    (hlen : tag.length ≠ 1) : circuit.read? text = none := by
  rw [read?_of_parse? hparse]
  have hitems : (list gate).decode? (.list items) = none :=
    mapM_eq_none htag (gate_decode?_of_length_ne hlen)
  have hmem : (unitsOf "gates", .list items) ∈ fields.filter (·.1 == unitsOf "gates") :=
    List.mem_filter.2 ⟨hgates, beq_self_eq_true _⟩
  have hfound : Document.field? fields "gates" = none ∨
      Document.field? fields "gates" = some (some (.list items)) := by
    unfold Document.field?
    split
    · rename_i hnone
      rw [hnone] at hmem
      cases hmem
    · rename_i hone
      rw [hone, List.mem_singleton] at hmem
      cases hmem
      exact .inr rfl
    · exact .inl rfl
  simp only [circuit, Document.parts?]
  split
  · rcases hfound with hrepeated | hone
    · rw [mapM_eq_none (a := "gates") (by simp) hrepeated]
      rfl
    cases hinputs : Document.field? fields "input_gates" with
    | none =>
      rw [mapM_eq_none (a := "input_gates") (by simp) hinputs]
      rfl
    | some inputs =>
      cases houtputs : Document.field? fields "output_gates" with
      | none =>
        rw [mapM_eq_none (a := "output_gates") (by simp) houtputs]
        rfl
      | some outputs =>
        have hgate : required? (list gate) (some (.list items)) = none := hitems
        simp only [List.mapM_cons, List.mapM_nil, hinputs, hone, houtputs, hgate,
          Option.bind_eq_bind, Option.bind_some, Option.pure_def, Option.bind_none]
        cases required? (list word) inputs <;> rfl
  · rfl

/-! ## All documents -/

/-- A structure is written with its fields in order. It is read from every text of an object with
these fields, in any order and between others, and such an object can be printed if the values of
the other fields can. -/
structure Tolerant (d : Document α) (known : α → List (String × Json)) (fits : α → Prop) :
    Prop where
  encode : ∀ a, d.encode a = objectOf (known a)
  spelled : ∀ a, fits a → ∀ (text : String) fields,
    parse? text.toList = some (.object fields) → Rearranged (fieldsOf (known a)) fields →
      d.read? text = some a
  printed : ∀ a, fits a → ∀ fields, Rearranged (fieldsOf (known a)) fields →
    (∀ field ∈ fields, field.1 ∉ (fieldsOf (known a)).map Prod.fst → field.2.Printable) →
      d.read? (String.ofList (Json.object fields).print) = some a

theorem tolerant_of_tolerates {d : Document α} {fits : α → Prop} {known : α → List (String × Json)}
    (hencode : ∀ a, d.encode a = objectOf (known a)) (hfaithful : d.Faithful fits)
    (htolerates : ∀ a, fits a → d.Tolerates (known a) a) : d.Tolerant known fits := by
  have hspelled : ∀ a, fits a → ∀ (text : String) fields,
      parse? text.toList = some (.object fields) → Rearranged (fieldsOf (known a)) fields →
        d.read? text = some a := fun a ha text fields hparse h => by
    rw [read?_of_parse? hparse, htolerates a ha fields h]
  refine ⟨hencode, hspelled, fun a ha fields h hother => hspelled a ha _ fields ?_ h⟩
  have hknown : ∀ field ∈ fieldsOf (known a), field.2.Printable := by
    have hwhole := hfaithful.printable a
    rw [hencode] at hwhole
    cases hwhole with
    | object hfields => exact hfields
  obtain ⟨extra, hperm, hextra⟩ := h
  rw [String.toList_ofList]
  refine (Printable.object fun field hfield => ?_).parse?_print
  rcases List.mem_append.1 (hperm.mem_iff.1 hfield) with hmem | hmem
  · exact hknown field hmem
  · exact hother field hfield (hextra field hmem).2

/-- All documents come back as they were written, and no two values have the same text. The fields
of a structure may be rearranged, and fields with other names are passed over. A gate is told by
the name of its one field, so that a circuit with any other field there is refused. -/
theorem documents_come_back_with_rearranged_fields :
    (layeredTables.Restored (fun _ => True) ∧ tables.Restored (fun _ => True) ∧
      keyMaterial.Restored (fun _ => True) ∧ circuit.Restored WordSized ∧
      block.Restored fun _ => True) ∧
    (layeredTables.Tolerant layeredFields (fun _ => True) ∧
      keyMaterial.Tolerant keyFields (fun _ => True) ∧
      circuit.Tolerant circuitFields WordSized) ∧
    ∀ (text : String) fields items tag, parse? text.toList = some (.object fields) →
      (unitsOf "gates", .list items) ∈ fields → .object tag ∈ items → tag.length ≠ 1 →
        circuit.read? text = none := by
  refine ⟨⟨faithful_layeredTables.restored, faithful_tables.restored,
    faithful_keyMaterial.restored, faithful_circuit.restored, faithful_block.restored⟩,
    ⟨?_, ?_, ?_⟩, fun _ _ _ _ => circuit_read?_of_length_ne⟩
  · exact tolerant_of_tolerates (fun _ => rfl) faithful_layeredTables
      fun t _ => tolerates_layeredTables t
  · exact tolerant_of_tolerates (fun _ => rfl) faithful_keyMaterial
      fun k _ => tolerates_keyMaterial k
  · exact tolerant_of_tolerates (fun _ => rfl) faithful_circuit fun _ => tolerates_circuit

/-- Tables whose fields were swapped, with a free gate, an empty table, an empty side and an absent
one, and with a field that no tables have. -/
theorem swapped_tables_with_a_foreign_field_come_back :
    let t : LayeredTables := { inner := ⟨[none, some []]⟩, input := some ⟨[]⟩ }
    let foreign := (unitsOf "note", Json.list [.numeral "-1.5e3".toList, .text (unitsOf "x")])
    layeredTables.read? (String.ofList
      (Json.object (foreign :: (fieldsOf (layeredFields t)).reverse)).print) = some t := by
  intro t foreign
  obtain ⟨_, ⟨hlayered, _, _⟩, _⟩ := documents_come_back_with_rearranged_fields
  refine hlayered.printed t trivial _ ⟨[foreign], ?_, ?_⟩ ?_
  · refine (List.Perm.cons foreign (List.reverse_perm _)).trans ?_
    exact (List.perm_append_singleton foreign _).symm
  · intro field hfield
    rw [List.mem_singleton] at hfield
    subst hfield
    exact ⟨by decide, by decide⟩
  · intro field hfield hother
    rcases List.mem_cons.1 hfield with rfl | hknown
    · refine .list fun item hitem => ?_
      simp only [List.mem_cons, List.not_mem_nil, or_false] at hitem
      rcases hitem with rfl | rfl
      · exact .numeral rfl
      · exact .text _
    · exact absurd (List.mem_map_of_mem (List.mem_reverse.1 hknown)) hother

/-- The text of a circuit is read as this circuit, but with a second field in the object of its
gate, with a name that no gate has, it is refused. -/
theorem gate_with_a_foreign_field_is_refused :
    let c : Circuit := ⟨[1], [.not 0], [0]⟩
    let tag := objectOf [("Not", .natural 0), ("x", .natural 1)]
    let extended := objectOf [("input_gates", (list word).encode [1]), ("gates", .list [tag]),
      ("output_gates", (list word).encode [0])]
    circuit.read? (circuit.write c) = some c ∧
      circuit.read? (String.ofList extended.print) = none := by
  refine ⟨by decide +kernel, by decide +kernel⟩

end Garbling.Json.Document
