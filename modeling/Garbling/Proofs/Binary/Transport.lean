-- The binary formats are exact. What was written is read back whatever
-- follows it, nothing else than what was written is read, and bytes that
-- end before the value does are refused as such, wherever they end.
import Garbling.Proofs.Binary.Lossless

namespace Garbling

namespace Format

variable {α β γ : Type}

/-! ## The laws of a format -/

/-- Reading and writing fit together, for the values that fit into the format. -/
structure Faithful (f : Format α) (fits : α → Prop) : Prop where
  lossless : f.Lossless fits
  canonical : ∀ {bytes a rest}, f.read bytes = .ok (a, rest) → fits a ∧ bytes = f.write a ++ rest
  cut : ∀ {a start missing}, fits a → f.write a = start ++ missing → missing ≠ [] →
    f.read start = .error .endOfInput

/-- The laws of decoding, where the rest of the bytes does not show. -/
structure Exact (f : Format α) (fits : α → Prop) : Prop where
  decode_write : ∀ a trailing, fits a → f.decode (f.write a ++ trailing) = .ok a
  write_of_decode : ∀ bytes a, f.decode bytes = .ok a → fits a ∧ f.write a <+: bytes
  decode_cut : ∀ a start, fits a → start <+: f.write a → start ≠ f.write a →
    f.decode start = .error .endOfInput

theorem Faithful.exact {f : Format α} {fits : α → Prop} (h : f.Faithful fits) : f.Exact fits where
  decode_write := by
    intro a trailing ha
    rw [decode, h.lossless a trailing ha]
    rfl
  write_of_decode := by
    intro bytes a hdecode
    unfold decode at hdecode
    rcases hread : f.read bytes with e | ⟨found, rest⟩
    · rw [hread] at hdecode
      cases hdecode
    · rw [hread] at hdecode
      cases hdecode
      obtain ⟨hfits, hbytes⟩ := h.canonical hread
      exact ⟨hfits, rest, hbytes.symm⟩
  decode_cut := by
    rintro a start ha ⟨missing, hmissing⟩ hne
    have hnonempty : missing ≠ [] := by
      rintro rfl
      rw [List.append_nil] at hmissing
      exact hne hmissing
    rw [decode, h.cut ha hmissing.symm hnonempty]
    rfl

/-- The values of a format can be described in another way. -/
theorem Faithful.congr {f : Format α} {fits fits' : α → Prop} (h : f.Faithful fits)
    (hiff : ∀ a, fits a ↔ fits' a) : f.Faithful fits' where
  lossless a rest ha := h.lossless a rest ((hiff a).2 ha)
  canonical hread := ⟨(hiff _).1 (h.canonical hread).1, (h.canonical hread).2⟩
  cut ha := h.cut ((hiff _).2 ha)

/-! ## One value after another -/

/-- The bytes end in the first value, or after it. In both cases a reader of the first value
and then of others notices it, if that of the others does. -/
theorem Faithful.cut_bind {f : Format α} {fits : α → Prop} (h : f.Faithful fits) {a : α}
    (ha : fits a) {others start missing : Bytes} (hwrite : f.write a ++ others = start ++ missing)
    {next : α × Bytes → Except ReadError γ}
    (hnext : ∀ left, others = left ++ missing → next (a, left) = .error .endOfInput) :
    (f.read start >>= next) = .error .endOfInput := by
  rcases List.append_eq_append_iff.1 hwrite with ⟨left, hstart, hothers⟩ | ⟨part, hfirst, _⟩
  · rw [hstart, h.lossless a left ha, ok_bind]
    exact hnext left hothers
  · cases part with
    | nil =>
      -- the bytes end exactly between the first value and the others
      rw [List.append_nil] at hfirst
      have hothers : others = [] ++ missing := by
        rw [hfirst] at hwrite
        exact List.append_cancel_left hwrite
      have hread := h.lossless a [] ha
      rw [List.append_nil, hfirst] at hread
      rw [hread, ok_bind]
      exact hnext [] hothers
    | cons b part =>
      rw [h.cut ha hfirst (List.cons_ne_nil b part)]
      rfl

theorem faithful_pair {f : Format α} {g : Format β} {fits : α → Prop} {fits' : β → Prop}
    (hf : f.Faithful fits) (hg : g.Faithful fits') :
    (pair f g).Faithful fun p => fits p.1 ∧ fits' p.2 where
  lossless := lossless_pair hf.lossless hg.lossless
  canonical := by
    rintro bytes ⟨a, b⟩ rest hread
    obtain ⟨⟨a', bytes'⟩, hfirst, hread⟩ := bind_eq_ok.1 hread
    obtain ⟨⟨b', rest'⟩, hsecond, hread⟩ := bind_eq_ok.1 hread
    rw [pure_eq_ok] at hread
    cases hread
    obtain ⟨ha, rfl⟩ := hf.canonical hfirst
    obtain ⟨hb, rfl⟩ := hg.canonical hsecond
    exact ⟨⟨ha, hb⟩, (List.append_assoc _ _ _).symm⟩
  cut := by
    rintro ⟨a, b⟩ start missing ⟨ha, hb⟩ hwrite hmissing
    refine hf.cut_bind ha hwrite fun left hleft => ?_
    show (g.read left >>= _) = _
    rw [hg.cut hb hleft hmissing]
    rfl

/-- What is read through a function comes from a value that was written. -/
theorem Faithful.of_map {f : Format α} {fits : α → Prop} (h : f.Faithful fits) (make : α → β)
    {bytes rest : Bytes} {b : β}
    (hread : (f.read bytes).map (fun p => (make p.1, p.2)) = .ok (b, rest)) :
    ∃ a, fits a ∧ make a = b ∧ bytes = f.write a ++ rest := by
  rcases hpart : f.read bytes with e | ⟨a, rest'⟩
  · rw [hpart] at hread
    cases hread
  · rw [hpart] at hread
    cases hread
    obtain ⟨ha, hbytes⟩ := h.canonical hpart
    exact ⟨a, ha, rfl, hbytes⟩

/-- The same bytes for another type, if parts that fit come from one value each. -/
theorem faithful_through {f : Format α} {fits : α → Prop} {toPart : β → α} {ofPart : α → β}
    (h : f.Faithful fits) (hvalue : ∀ b, ofPart (toPart b) = b)
    (hpart : ∀ a, fits a → toPart (ofPart a) = a) :
    (through f toPart ofPart).Faithful fun b => fits (toPart b) where
  lossless := lossless_through h.lossless hvalue
  canonical := by
    intro bytes b rest hread
    obtain ⟨a, ha, rfl, rfl⟩ := h.of_map ofPart hread
    rw [hpart a ha]
    exact ⟨ha, by simp only [through, hpart a ha]⟩
  cut := by
    intro b start missing hb hwrite hmissing
    simp only [through, h.cut hb hwrite hmissing, Except.map]

/-! ## Formats -/

theorem faithful_byte : byte.Faithful fun _ => True where
  lossless := lossless_byte
  canonical := by
    intro bytes b rest hread
    cases bytes with
    | nil => cases hread
    | cons found others =>
      cases hread
      exact ⟨trivial, rfl⟩
  cut := by
    intro b start missing _ hwrite hmissing
    cases start with
    | nil => rfl
    | cons found others =>
      have hrest := (List.cons.inj hwrite).2
      exact absurd (List.append_eq_nil_iff.1 hrest.symm).2 hmissing

/-- Bytes of which a fixed number is read are refused if there are fewer. -/
theorem length_lt_of_cut {whole start missing : Bytes} (h : whole = start ++ missing)
    (hmissing : missing ≠ []) : start.length < whole.length := by
  have hpos := List.length_pos_iff.2 hmissing
  rw [h, List.length_append]
  omega

theorem faithful_natural (size : Nat) : (natural size).Faithful (· < Nat.pow 256 size) where
  lossless := lossless_natural size
  canonical := by
    intro bytes n rest hread
    simp only [natural] at hread ⊢
    split at hread
    · rename_i hle
      cases hread
      have hlen : (bytes.take size).length = size := List.length_take_of_le hle
      have hlt := ofLeBytes_lt (bytes.take size)
      have hwrite := leBytes_ofLeBytes (bytes.take size)
      rw [hlen] at hlt hwrite
      exact ⟨hlt, by rw [hwrite, List.take_append_drop]⟩
    · cases hread
  cut := by
    intro n start missing _ hwrite hmissing
    have hlt := length_lt_of_cut hwrite hmissing
    simp only [natural, length_leBytes] at hlt ⊢
    rw [if_neg (Nat.not_le.2 hlt)]

theorem faithful_word : word.Faithful Countable := faithful_natural 8

theorem faithful_fixed (size : Nat) : (fixed size).Faithful (·.length = size) where
  lossless := by
    intro bytes rest hlen
    simp only [fixed, List.length_append, hlen, Nat.le_add_right, if_true, List.take_left' hlen,
      List.drop_left' hlen]
  canonical := by
    intro bytes part rest hread
    simp only [fixed] at hread ⊢
    split at hread
    · rename_i hle
      cases hread
      exact ⟨List.length_take_of_le hle, (List.take_append_drop size bytes).symm⟩
    · cases hread
  cut := by
    intro part start missing hlen hwrite hmissing
    have hlt := length_lt_of_cut hwrite hmissing
    simp only [fixed, hlen] at hlt ⊢
    rw [if_neg (Nat.not_le.2 hlt)]

theorem faithful_optional {f : Format α} {fits : α → Prop} (h : f.Faithful fits) :
    (optional f).Faithful fun slot => ∀ a, slot = some a → fits a where
  lossless := lossless_optional h.lossless
  canonical := by
    intro bytes slot rest hread
    cases bytes with
    | nil => cases hread
    | cons tag others =>
      simp only [optional] at hread
      split at hread
      · rename_i htag
        cases hread
        refine ⟨?_, by rw [htag]; rfl⟩
        intro a ha
        cases ha
      split at hread
      · rename_i htag
        rcases hvalue : f.read others with e | ⟨a, rest'⟩
        · simp only [hvalue, Except.map] at hread
          cases hread
        · simp only [hvalue, Except.map] at hread
          cases hread
          obtain ⟨ha, rfl⟩ := h.canonical hvalue
          refine ⟨?_, by rw [htag]; rfl⟩
          intro a' ha'
          cases ha'
          exact ha
      · cases hread
  cut := by
    intro slot start missing hslot hwrite hmissing
    cases start with
    | nil => rfl
    | cons tag others =>
      cases slot with
      | none =>
        have hrest := (List.cons.inj hwrite).2
        exact absurd (List.append_eq_nil_iff.1 hrest.symm).2 hmissing
      | some a =>
        obtain ⟨rfl, hvalue⟩ := List.cons.inj hwrite
        simp only [optional, h.cut (hslot a rfl) hvalue hmissing, Except.map]
        rfl

/-! ## Lists -/

/-- Only as many values as asked for are read, and their bytes are those that were written. -/
theorem Faithful.canonical_readMany {f : Format α} {fits : α → Prop} (h : f.Faithful fits)
    {count : Nat} {bytes rest : Bytes} {as : List α}
    (hread : f.readMany count bytes = .ok (as, rest)) :
    as.length = count ∧ (∀ a ∈ as, fits a) ∧ bytes = as.flatMap f.write ++ rest := by
  induction count generalizing bytes as with
  | zero =>
    cases hread
    exact ⟨rfl, fun a ha => (nomatch ha), rfl⟩
  | succ count ih =>
    obtain ⟨⟨a, bytes'⟩, hfirst, hread⟩ := bind_eq_ok.1 hread
    obtain ⟨⟨others, rest'⟩, hothers, hread⟩ := bind_eq_ok.1 hread
    rw [pure_eq_ok] at hread
    cases hread
    obtain ⟨ha, rfl⟩ := h.canonical hfirst
    obtain ⟨hlen, hall, rfl⟩ := ih hothers
    refine ⟨by rw [List.length_cons, hlen], ?_, ?_⟩
    · intro b hb
      rcases List.mem_cons.1 hb with rfl | hb
      · exact ha
      · exact hall b hb
    · rw [List.flatMap_cons, List.append_assoc]

/-- Values of which the last bytes are missing cannot all be read. -/
theorem Faithful.cut_readMany {f : Format α} {fits : α → Prop} (h : f.Faithful fits)
    {as : List α} (has : ∀ a ∈ as, fits a) {start missing : Bytes}
    (hwrite : as.flatMap f.write = start ++ missing) (hmissing : missing ≠ []) :
    f.readMany as.length start = .error .endOfInput := by
  induction as generalizing start with
  | nil => exact absurd (List.append_eq_nil_iff.1 hwrite.symm).2 hmissing
  | cons a as ih =>
    rw [List.flatMap_cons] at hwrite
    refine h.cut_bind (has a List.mem_cons_self) hwrite fun left hleft => ?_
    show (f.readMany as.length left >>= _) = _
    rw [ih (fun b hb => has b (List.mem_cons_of_mem _ hb)) hleft]
    rfl

theorem faithful_list {f : Format α} {fits : α → Prop} (h : f.Faithful fits) :
    (list f).Faithful fun as => Countable as.length ∧ ∀ a ∈ as, fits a where
  lossless := lossless_list h.lossless
  canonical := by
    intro bytes as rest hread
    obtain ⟨⟨count, bytes'⟩, hcount, hread⟩ := bind_eq_ok.1 hread
    obtain ⟨hfits, hbytes⟩ := faithful_word.canonical hcount
    obtain ⟨hlen, hall, hbytes'⟩ := h.canonical_readMany hread
    rw [← hlen] at hfits hbytes
    refine ⟨⟨hfits, hall⟩, ?_⟩
    rw [hbytes, hbytes', ← List.append_assoc]
    rfl
  cut := by
    rintro as start missing ⟨hlen, has⟩ hwrite hmissing
    simp only [list] at hwrite ⊢
    refine faithful_word.cut_bind hlen hwrite fun left hleft => ?_
    exact h.cut_readMany has hleft hmissing

theorem faithful_bytes : bytes.Faithful fun bs => Countable bs.length :=
  (faithful_list faithful_byte).congr fun bs => by simp

/-! ## Gates -/

/-- The wires that a gate reads fit into words. -/
def GateFits (g : Gate Nat) : Prop := ∀ wire ∈ g.operands, Countable wire

/-- The number of the kind of a gate. -/
def kindOf : Gate Nat → Nat
  | .xor _ _ => 0
  | .and _ _ => 1
  | .or _ _ => 2
  | .not _ => 3

/-- The bytes of a gate after its kind. -/
def writeOperands : Gate Nat → Bytes
  | .xor x y | .and x y | .or x y => (pair word word).write (x, y)
  | .not x => word.write x

/-- The gate of a kind with the operands that are read. -/
def readOperands (kind : Nat) (bytes : Bytes) : Except ReadError (Gate Nat × Bytes) :=
  match kind with
  | 0 => ((pair word word).read bytes).map fun ((x, y), rest) => (.xor x y, rest)
  | 1 => ((pair word word).read bytes).map fun ((x, y), rest) => (.and x y, rest)
  | 2 => ((pair word word).read bytes).map fun ((x, y), rest) => (.or x y, rest)
  | 3 => (word.read bytes).map fun (x, rest) => (.not x, rest)
  | kind => throw (.gateKind kind)

theorem gate_write (g : Gate Nat) :
    gate.write g = gateKind.write (kindOf g) ++ writeOperands g := by
  cases g <;> rfl

theorem gate_read (bytes : Bytes) :
    gate.read bytes = gateKind.read bytes >>= fun (kind, rest) => readOperands kind rest := rfl

theorem kindOf_lt (g : Gate Nat) : kindOf g < Nat.pow 256 4 := by
  have hle : kindOf g ≤ 3 := by
    cases g <;> simp [kindOf]
  exact Nat.lt_of_le_of_lt hle (by decide)

theorem faithful_gateKind : gateKind.Faithful (· < Nat.pow 256 4) := faithful_natural 4

theorem faithful_operands : (pair word word).Faithful fun p => Countable p.1 ∧ Countable p.2 :=
  faithful_pair faithful_word faithful_word

theorem readOperands_write {g : Gate Nat} (h : GateFits g) (rest : Bytes) :
    readOperands (kindOf g) (writeOperands g ++ rest) = .ok (g, rest) := by
  cases g with
  | xor x y | and x y | or x y =>
    have hread := faithful_operands.lossless (x, y) rest ⟨h x (by simp [Gate.operands]),
      h y (by simp [Gate.operands])⟩
    simp only [readOperands, kindOf, writeOperands, hread, Except.map]
  | not x =>
    have hread := faithful_word.lossless x rest (h x (by simp [Gate.operands]))
    simp only [readOperands, kindOf, writeOperands, hread, Except.map]

theorem cut_readOperands {g : Gate Nat} (h : GateFits g) {start missing : Bytes}
    (hwrite : writeOperands g = start ++ missing) (hmissing : missing ≠ []) :
    readOperands (kindOf g) start = .error .endOfInput := by
  cases g with
  | xor x y | and x y | or x y =>
    have hread := faithful_operands.cut ⟨h x (by simp [Gate.operands]),
      h y (by simp [Gate.operands])⟩ hwrite hmissing
    simp only [readOperands, kindOf, hread, Except.map]
  | not x =>
    have hread := faithful_word.cut (h x (by simp [Gate.operands])) hwrite hmissing
    simp only [readOperands, kindOf, hread, Except.map]

theorem canonical_readOperands {kind : Nat} {g : Gate Nat} {bytes rest : Bytes}
    (hread : readOperands kind bytes = .ok (g, rest)) :
    GateFits g ∧ kind = kindOf g ∧ bytes = writeOperands g ++ rest := by
  have hfits : ∀ {x y : Nat}, Countable x ∧ Countable y → ∀ wire ∈ [x, y], Countable wire := by
    intro x y h
    simpa using h
  unfold readOperands at hread
  split at hread
  · obtain ⟨⟨x, y⟩, hxy, rfl, hbytes⟩ :=
      faithful_operands.of_map (fun p => Gate.xor p.1 p.2) hread
    exact ⟨hfits hxy, rfl, hbytes⟩
  · obtain ⟨⟨x, y⟩, hxy, rfl, hbytes⟩ :=
      faithful_operands.of_map (fun p => Gate.and p.1 p.2) hread
    exact ⟨hfits hxy, rfl, hbytes⟩
  · obtain ⟨⟨x, y⟩, hxy, rfl, hbytes⟩ :=
      faithful_operands.of_map (fun p => Gate.or p.1 p.2) hread
    exact ⟨hfits hxy, rfl, hbytes⟩
  · obtain ⟨x, hx, rfl, hbytes⟩ := faithful_word.of_map Gate.not hread
    exact ⟨by simpa [GateFits, Gate.operands] using hx, rfl, hbytes⟩
  · cases hread

theorem faithful_gate : gate.Faithful GateFits where
  lossless := by
    intro g rest hg
    rw [gate_write, gate_read, List.append_assoc,
      faithful_gateKind.lossless _ _ (kindOf_lt g), ok_bind]
    exact readOperands_write hg rest
  canonical := by
    intro bytes g rest hread
    rw [gate_read] at hread
    obtain ⟨⟨kind, bytes'⟩, hkind, hread⟩ := bind_eq_ok.1 hread
    obtain ⟨_, hbytes⟩ := faithful_gateKind.canonical hkind
    obtain ⟨hg, rfl, rfl⟩ := canonical_readOperands hread
    rw [gate_write, List.append_assoc]
    exact ⟨hg, hbytes⟩
  cut := by
    intro g start missing hg hwrite hmissing
    rw [gate_write] at hwrite
    rw [gate_read]
    exact faithful_gateKind.cut_bind (kindOf_lt g) hwrite fun left hleft =>
      cut_readOperands hg hleft hmissing

end Format

/-! ## Documents -/

/-- The sizes of all key arrays fit into words. -/
structure KeyMaterial.Countable (k : KeyMaterial) : Prop where
  inputKeys : Format.Countable k.inputKeys.length
  outputKeys : Format.Countable k.outputKeys.length
  translation : Format.Countable k.translation.length

/-- The numbers of parties, gates and outputs and all numbers of wires fit into words. -/
structure Circuit.Countable (c : Circuit) : Prop where
  inputs : Format.Countable c.inputs.length ∧ ∀ count ∈ c.inputs, Format.Countable count
  gates : Format.Countable c.gates.length ∧ ∀ g ∈ c.gates, Format.GateFits g
  outputs : Format.Countable c.outputs.length ∧ ∀ wire ∈ c.outputs, Format.Countable wire

namespace Format

theorem faithful_block : block.Faithful fun _ => True :=
  (faithful_through (faithful_fixed Block.size) Block.ofBytes_toBytes
    fun _ hlen => Block.toBytes_ofBytes hlen).congr fun b => by simp

theorem faithful_tables : Format.tables.Faithful Tables.Countable :=
  faithful_through (faithful_list (faithful_optional faithful_bytes)) (fun _ => rfl) fun _ _ => rfl

theorem faithful_layeredTables : layeredTables.Faithful LayeredTables.Countable :=
  have hside := faithful_optional faithful_tables
  (faithful_through (faithful_pair faithful_tables (faithful_pair hside hside))
    (fun _ => rfl) fun _ _ => rfl).congr fun _ =>
      ⟨fun ⟨inner, input, output⟩ => ⟨inner, input, output⟩,
        fun h => ⟨h.inner, h.input, h.output⟩⟩

theorem faithful_keyMaterial : keyMaterial.Faithful KeyMaterial.Countable :=
  (faithful_through (faithful_pair faithful_bytes (faithful_pair faithful_bytes faithful_bytes))
    (fun _ => rfl) fun _ _ => rfl).congr fun _ =>
      ⟨fun ⟨inputKeys, outputKeys, translation⟩ => ⟨inputKeys, outputKeys, translation⟩,
        fun h => ⟨h.inputKeys, h.outputKeys, h.translation⟩⟩

theorem faithful_circuit : Format.circuit.Faithful Circuit.Countable :=
  (faithful_through (faithful_pair (faithful_list faithful_word)
    (faithful_pair (faithful_list faithful_gate) (faithful_list faithful_word)))
    (fun _ => rfl) fun _ _ => rfl).congr fun _ =>
      ⟨fun ⟨inputs, gates, outputs⟩ => ⟨inputs, gates, outputs⟩,
        fun h => ⟨h.inputs, h.gates, h.outputs⟩⟩

/-- Every document whose numbers fit into words is decoded from its bytes and any bytes behind
them. Bytes that decode begin with those of the value, which fits. Bytes that are cut off
anywhere are refused because they end. -/
theorem documents_are_lossless_canonical_and_never_read_when_cut :
    layeredTables.Exact LayeredTables.Countable ∧ Format.tables.Exact Tables.Countable ∧
      keyMaterial.Exact KeyMaterial.Countable ∧ Format.circuit.Exact Circuit.Countable ∧
      block.Exact fun _ => True :=
  ⟨faithful_layeredTables.exact, faithful_tables.exact, faithful_keyMaterial.exact,
    faithful_circuit.exact, faithful_block.exact⟩

/-- A free gate, an empty table and a side without tables all arrive as they were sent. -/
theorem sent_tables_arrive_or_are_refused :
    let sent : LayeredTables := { inner := ⟨[none, some [9, 9]]⟩, input := some ⟨[some []]⟩ }
    sent.Countable ∧
      (∀ trailing, layeredTables.decode (layeredTables.write sent ++ trailing) = .ok sent) ∧
      layeredTables.decode ((layeredTables.write sent).take 12) = .error .endOfInput := by
  intro sent
  obtain ⟨hdecode, _, hcut⟩ := documents_are_lossless_canonical_and_never_read_when_cut.1
  have hcountable : sent.Countable := by
    refine ⟨?_, ?_, ?_⟩ <;> simp [sent, Tables.Countable, Format.Countable]
  refine ⟨hcountable, fun trailing => hdecode sent trailing hcountable, ?_⟩
  exact hcut sent _ hcountable (List.take_prefix 12 _) (by decide)

end Format

end Garbling
