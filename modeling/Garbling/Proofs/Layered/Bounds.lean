-- No read and no copy past an end with layers either. An identity table is
-- only read if it has the length that the scheme stands for, whatever its
-- ciphertexts decrypt to, a payload is only split if it is long enough, and
-- each layer is given as many keys as it has gates. The copies that have no
-- check rely on lengths that never differ.
import Garbling.Proofs.Bounds
import Garbling.Proofs.CounterStream
import Garbling.Proofs.Layered.Sessions

namespace Garbling

/-! ## Identity tables -/

namespace IdentityGate

variable {s : Scheme} {k : Keying} {table : Bytes}

theorem inBounds_encryptBlock (s : Scheme) (k : Keying) (plaintext : Bytes) :
    Avoids .outOfRange (encryptBlock s k plaintext) := by
  refine (avoids_mapError (by simp) _).bind fun ciphertext => ?_
  split
  · exact avoids_ok _ _
  · exact avoids_throw (by simp)

theorem inBounds_row (s : Scheme) (gate : UInt32) (inputKey outputKey : Bytes) :
    Avoids .outOfRange (row s gate inputKey outputKey) :=
  (avoids_keying Error.not_onTheWay_outOfRange s gate inputKey).bind fun k =>
    (inBounds_encryptBlock s k outputKey).bind fun _ =>
      (inBounds_encryptBlock s k _).bind fun _ => avoids_ok _ _

/-- Four blocks are written into a table of four blocks. -/
theorem inBounds_table (s : Scheme) (gate : UInt32) (zeroSecond : Bool)
    (inputs outputs : Bytes × Bytes) :
    Avoids .outOfRange (IdentityGate.table s gate zeroSecond inputs outputs) := by
  rw [table_eq]
  exact (inBounds_row s gate _ _).bind fun _ => (inBounds_row s gate _ _).bind fun _ => avoids_ok _ _

/-- An audit can only have read past an end if what it reads with has. -/
theorem avoids_unreadable {α : Type} {r : Rejection} (hr : r.PastEnd) {x : Except Error α}
    (hx : Avoids .outOfRange x) : Avoids r (x.mapError Rejection.unreadable) := by
  cases x with
  | ok a => exact avoids_ok _ _
  | error e =>
    refine avoids_throw (hr.ne ?_)
    rintro (h | h)
    · cases h
    · cases h
      exact hx rfl

theorem inBounds_audit {r : Rejection} (hr : r.PastEnd) (s : Scheme) (gate : UInt32) (table : Bytes)
    (inputs : Bytes × Bytes) (outputSize : Nat) :
    Avoids r (audit s gate table inputs outputSize) := by
  have he := Error.not_onTheWay_outOfRange
  refine Avoids.guard_of_not (hr.ne (by simp)) fun hlen => ?_
  have hlen := Decidable.not_not.1 hlen
  have hrow : ∀ k, Avoids r (auditRow s gate k table) := fun k =>
    (avoids_unreadable hr (avoids_openedRows he hlen k)).bind fun (first, second) =>
      Avoids.guard (hr.ne (by simp)) (avoids_ok _ _)
  have hpayload : ∀ k second, Avoids r (auditPayload s gate k table second outputSize) := by
    intro k second
    have hread := avoids_payload? he hlen k second.toNat_lt outputSize
    refine (avoids_unreadable hr hread).bind fun found => ?_
    cases found with
    | none => exact avoids_throw (hr.ne (by simp))
    | some key => exact avoids_ok _ _
  refine (avoids_unreadable hr (avoids_keying he s gate inputs.1)).bind fun k0 => ?_
  refine (avoids_unreadable hr (avoids_keying he s gate inputs.2)).bind fun k1 => ?_
  refine (hrow k0).bind fun row0 => (hrow k1).bind fun row1 => Avoids.guard (hr.ne (by simp)) ?_
  exact (hpayload k0 row0).bind fun key0 => (hpayload k1 row1).bind fun key1 => avoids_ok _ _

end IdentityGate

/-! ## Layers -/

theorem RowOrder.inBounds_next {P : Type} [Generator P] (order : RowOrder P) :
    Avoids .outOfRange order.next.1 := by
  cases order with
  | random bits => exact avoids_ok _ _
  | seeded generator =>
    rw [next_seeded]
    split
    · exact avoids_throw (by simp)
    · exact avoids_ok _ _

namespace Layer

variable {P : Type} [Generator P]

theorem inBounds_checkCount (wires : Nat) : Avoids .outOfRange (checkCount wires) := by
  unfold checkCount
  split
  · exact avoids_ok _ _
  · exact avoids_throw (by simp)

theorem inBounds_tablesAt {s : Scheme} {source target : Keys} {positions : List Nat}
    (h : ∀ position ∈ positions, ∀ zeroSecond,
      Avoids .outOfRange (tableAt s source target position zeroSecond)) (order : RowOrder P) :
    Avoids .outOfRange (tablesAt s source target order positions).1 := by
  induction positions generalizing order with
  | nil => exact avoids_ok _ _
  | cons position positions ih =>
    have hnext := order.inBounds_next
    unfold tablesAt
    split
    · rename_i hfail
      exact hnext.rethrow (congrArg Prod.fst hfail)
    rename_i zeroSecond rest _
    have htable := h position List.mem_cons_self zeroSecond
    split
    · rename_i hfail
      exact htable.rethrow hfail
    have hrest := ih (fun position hmem => h position (List.mem_cons_of_mem _ hmem)) rest
    split
    · rename_i hfail
      exact hrest.rethrow (congrArg Prod.fst hfail)
    · exact avoids_ok _ _

/-- Both arrays have keys for all wires before any is read. -/
theorem inBounds_garble (s : Scheme) (wires : Nat) (source target : Keys) (order : RowOrder P) :
    Avoids .outOfRange (garble s wires source target order).1 := by
  unfold garble
  dsimp only
  split
  · rename_i hlengths
    have hcheck : Avoids .outOfRange (do
        KeyArray.checkLength source.bytes (2 * wires * source.size)
        KeyArray.checkLength target.bytes (2 * wires * target.size)) :=
      (KeyArray.inBounds_checkLength _ _).bind fun _ => KeyArray.inBounds_checkLength _ _
    exact hcheck.rethrow hlengths
  · rename_i hlengths
    obtain ⟨_, hsource, htarget⟩ := bind_eq_ok.1 hlengths
    rw [KeyArray.checkLength_eq_ok] at hsource htarget
    refine (inBounds_tablesAt (fun position hmem zeroSecond => ?_) order).map _
    have hposition := List.mem_range.1 hmem
    unfold tableAt
    rw [Keys.pairAt?_eq_some hsource hposition, Keys.pairAt?_eq_some htarget hposition]
    exact IdentityGate.inBounds_table _ _ _ _ _

omit [Generator P] in
theorem inBounds_audit {r : Rejection} (hr : r.PastEnd) (s : Scheme) (tables : Tables) (wires : Nat)
    (keys : Keys) (outputSize : Nat) : Avoids r (audit s tables wires keys outputSize) := by
  refine Avoids.guard (hr.ne (by simp)) (Avoids.guard_of_not (hr.ne (by simp)) fun hlen => ?_)
  have hlen := Decidable.not_not.1 hlen
  refine Avoids.bind (Avoids.mapM_of_mem fun position hmem => ?_) fun outputs => avoids_ok _ _
  unfold auditAt
  split
  · exact avoids_throw (hr.ne (by simp))
  · rw [Keys.pairAt?_eq_some hlen (List.mem_range.1 hmem)]
    exact (IdentityGate.inBounds_audit hr _ _ _ _ _).bind fun (key0, key1) => avoids_ok _ _

end Layer

/-! ## Sides -/

namespace Side

theorem inBounds_audit {r : Rejection} (hr : r.PastEnd) (side : Side) (s : Scheme) (wires : Nat)
    (pairs : Bytes) (m n : Nat) : Avoids r (side.audit s wires pairs m n) := by
  unfold audit
  split
  · exact avoids_throw (hr.ne (by simp))
  · exact avoids_ok _ _
  · exact Layer.inBounds_audit hr _ _ _ _ _

theorem inBounds_pin (side : Side) (wires size : Nat) (keys : Bytes) :
    Avoids .outOfRange (side.pin wires size keys) :=
  (KeyArray.inBounds_checkLength _ _).bind fun _ =>
    (Layer.inBounds_checkCount wires).bind fun _ => avoids_ok _ _

theorem inBounds_expect (side : Side) (wires : Nat) (received : Option Tables) :
    Avoids .outOfRange (side.expect wires received) := by
  cases received with
  | none => exact avoids_ok _ _
  | some tables => exact (Layer.inBounds_checkCount wires).bind fun _ => avoids_ok _ _

end Side

/-! ## Copies that are not checked where they run -/

/-- The lengths that these copies and splits rely on hold by themselves, so none of them needs a
check. Each is the same as one with a check. -/
structure CopiesFit : Prop where
  /-- The rows of a gate, each at the place that its labels name, lie within the table. -/
  gateRows : ∀ (circuit : Circuit) (stream : CounterStream) (hash : PairHash) (gate : Nat)
    (op : Bool → Bool → Bool) (a b c : Block),
    let offset := (FreeXor.Labels.draw circuit stream).offset
    GateTable.write? hash gate op offset a b c = some (GateTable.garble hash gate op offset a b c)
  /-- Labels are read from whole chunks. -/
  labels : ∀ bytes, ∀ chunk ∈ Bytes.wholePieces Block.size bytes, chunk.length = Block.size
  /-- A request for bytes of a keystream is served by copies into a buffer, each one out of what
  is left of a block. -/
  keystream : ∀ (stream : CounterStream) (buffer : Bytes),
    stream.fillFrom? buffer 0 buffer.length = some (stream.read buffer.length)
  /-- The number of a gate lies within its tweak. -/
  tweak : ∀ t : Tweak, (Bytes.zeros 16).write? 12 4 (beBytes 4 t.gate.toNat) = some t.toBytes
  /-- A plaintext lies within the block that it is padded to. -/
  padding : ∀ size plaintext block, Scheme.pad size plaintext = .ok block →
    block.length = size ∧ (Bytes.zeros size).write? 0 plaintext.length plaintext = some block
  /-- A round splits its block within the block. -/
  halves : ∀ mask number (block : Bytes), ∃ left right,
    splitAt? (block.length / 2) block = some (left, right) ∧
    Scheme.Feistel.round mask number block =
      if number % 2 = 0 then Bytes.masked left (mask number right left.length) ++ right
      else left ++ Bytes.masked right (mask number left right.length)

theorem copiesFit : CopiesFit where
  gateRows circuit stream hash gate op a b c :=
    GateTable.write?_eq_some (FreeXor.Labels.signal_offset_draw circuit stream) hash gate op a b c
  labels _ _ hmem := Bytes.length_of_mem_wholePieces hmem
  keystream := CounterStream.fillFrom?_eq
  tweak := Scheme.write?_tweak
  padding _ _ _ hpad := Scheme.write?_of_pad hpad
  halves _ _ block := ⟨_, _, splitAt?_eq_some (Nat.div_le_self block.length 2), rfl⟩

/-! ## Circuits with layers -/

namespace Layered

variable {P G : Type}

theorem inBounds_audit {r : Rejection} (hr : r.PastEnd) (c : Layered P G) (pairs : Bytes) :
    Avoids r (c.audit pairs) := by
  rw [audit_eq]
  refine (Side.inBounds_audit hr _ _ _ _ _ _).bind fun innerPairs => ?_
  refine (c.inner.inBounds_audit hr innerPairs).bind fun inner => ?_
  exact (Side.inBounds_audit hr _ _ _ _ _ _).bind fun outer => avoids_ok _ _

theorem inBounds_compute (c : Layered P G) (keys : Bytes) : Avoids .outOfRange (c.compute keys) :=
  avoids_compute_of Error.not_onTheWay_outOfRange (by simp) (by simp)

theorem inBounds_garbledInput (c : Layered P G) (bits pairs : Bytes) (party : Nat) :
    Avoids .outOfRange (c.garbledInput bits pairs party) := by
  rw [garbledInput_eq]
  exact (c.inner.inBounds_partyWires party).bind_of_ok fun _ hwires =>
    KeyArray.inBounds_select (FreeXor.lt_of_mem_partyWires hwires)

theorem inBounds_setTables (c : Layered P G) (tables : LayeredTables) :
    Avoids .outOfRange (c.setTables tables).1 := by
  have hinner := c.inner.inBounds_setTables tables.inner
  unfold setTables
  split
  · exact avoids_throw (by simp)
  split
  · exact avoids_throw (by simp)
  split
  · rename_i hfail
    exact hinner.rethrow hfail
  rename_i inner _
  have hin := c.input.inBounds_expect inner.inputCount tables.input
  have hout := c.output.inBounds_expect inner.outputCount tables.output
  split
  · rename_i hfail
    exact hin.rethrow hfail
  split
  · rename_i hfail
    exact hout.rethrow hfail
  · exact avoids_ok _ _

theorem inBounds_setInputKeys (c : Layered P G) (keys : Bytes) :
    Avoids .outOfRange (c.setInputKeys keys) :=
  Avoids.guard (by simp) ((c.input.inBounds_pin _ _ keys).bind fun _ => avoids_ok _ _)

theorem inBounds_setOutputKeys (c : Layered P G) (keys : Bytes) :
    Avoids .outOfRange (c.setOutputKeys keys) :=
  Avoids.guard (by simp) ((c.output.inBounds_pin _ _ keys).bind fun _ => avoids_ok _ _)

/-- Pinning keys only if some are given. -/
theorem inBounds_elim {c : Layered P G} {pin : Bytes → Except Error (Layered P G)}
    (hpin : ∀ keys, Avoids .outOfRange (pin keys)) (keys : Option Bytes) :
    Avoids .outOfRange (keys.elim (.ok c) pin) := by
  cases keys with
  | none => exact avoids_ok _ _
  | some keys => exact hpin keys

section

variable [Generator P]

theorem inBounds_layerTables (order : RowOrder P) (keys : Option Bytes)
    {garble : Bytes → Except Error Tables × RowOrder P}
    (h : ∀ pinned, Avoids .outOfRange (garble pinned).1) :
    Avoids .outOfRange (layerTables order keys garble).1 := by
  cases keys with
  | none => exact avoids_ok _ _
  | some pinned => exact (h pinned).map some

theorem inBounds_inputTables (c : Layered P G) (inner : KeyMaterial) (order : RowOrder P) :
    Avoids .outOfRange (c.inputTables inner order).1 :=
  inBounds_layerTables _ _ fun _ => Layer.inBounds_garble _ _ _ _ _

theorem inBounds_outputTables (c : Layered P G) (inner : KeyMaterial) (order : RowOrder P) :
    Avoids .outOfRange (c.outputTables inner order).1 :=
  inBounds_layerTables _ _ fun _ => Layer.inBounds_garble _ _ _ _ _

theorem inBounds_finish (c : Layered P G) (inner : KeyMaterial) (order : RowOrder P) :
    Avoids .outOfRange (c.finish inner order).1 := by
  unfold finish
  split
  · rename_i hfail
    exact (inBounds_inputTables _ _ _).rethrow (congrArg Prod.fst hfail)
  dsimp only
  split
  · rename_i hfail
    exact (inBounds_outputTables _ _ _).rethrow (congrArg Prod.fst hfail)
  · exact avoids_ok _ _

theorem inBounds_garble (c : Layered P G) (key : Block) (rows : Nat → Bool) :
    Avoids .outOfRange (c.garble key rows).1 := by
  obtain ⟨keys, inner, hinner⟩ := FreeXor.exists_garble c.inner key
  unfold garble
  rw [hinner]
  exact inBounds_finish _ keys _

/-- The stream is split into two seeds after it gave enough for both. -/
theorem inBounds_drawSeeds (generator : P) (size : Nat) :
    Avoids .outOfRange (drawSeeds generator size).1 := by
  rw [drawSeeds_eq]
  split
  · exact avoids_throw (by simp)
  · exact avoids_ok _ _

variable [Generator G]

theorem inBounds_garbleSeeded (c : Layered P G) (seed : Bytes) :
    Avoids .outOfRange (c.garbleSeeded seed).1 := by
  unfold garbleSeeded
  split
  · exact avoids_throw (by simp)
  split
  · rename_i hfail
    exact (inBounds_drawSeeds _ _).rethrow (congrArg Prod.fst hfail)
  split
  · rename_i hfail
    exact (c.inner.inBounds_garbleSeeded _).rethrow (congrArg Prod.fst hfail)
  split
  · exact avoids_throw (by simp)
  · exact inBounds_finish _ _ _

theorem inBounds_garblePinned (c : Layered P G) (seed : Bytes)
    (inputKeys outputKeys : Option Bytes) :
    Avoids .outOfRange (c.garblePinned seed inputKeys outputKeys).1 := by
  unfold garblePinned
  split
  · rename_i hfail
    exact (inBounds_elim c.inBounds_setInputKeys inputKeys).rethrow hfail
  rename_i c _
  split
  · rename_i hfail
    exact (inBounds_elim c.inBounds_setOutputKeys outputKeys).rethrow hfail
  · exact inBounds_garbleSeeded _ seed

theorem inBounds_verifyHashed (c : Layered P G) (seed : Bytes)
    (inputKeys outputKeys : Option Bytes) (d : Digest) (digest : Bytes) :
    Avoids .outOfRange (c.verifyHashed seed inputKeys outputKeys d digest).1 := by
  unfold verifyHashed
  split
  · exact avoids_ok _ _
  split
  · rename_i hfail
    exact (c.inBounds_garblePinned seed inputKeys outputKeys).rethrow (congrArg Prod.fst hfail)
  · exact avoids_ok _ _

/-! ## Their sessions -/

/-- No request that every garbled circuit can be asked reads past an end. -/
theorem inBounds_respond (c : Layered P G)
    (request : Garbling.Request LayeredOutput LayeredTables) :
    Avoids .outOfRange (c.respond request).1 := by
  cases request with
  | garble key rows => exact (c.inBounds_garble key rows).map _
  | garbleSeeded seed => exact (c.inBounds_garbleSeeded seed).map _
  | garbledInput bits pairs party => exact (c.inBounds_garbledInput bits pairs party).map _
  | compute keys => exact (c.inBounds_compute keys).map _
  | translate output => exact (c.inner.inBounds_translate output.inner).map _
  | verifiedTranslate output pairs =>
    refine Avoids.map ?_ _
    exact (KeyArray.inBounds_checkAllRecorded _ _ _ _).bind fun _ =>
      c.inner.inBounds_translate output.inner
  | setTables tables => exact (c.inBounds_setTables tables).map _
  | partyWires party => exact (c.inner.inBounds_partyWires party).map _
  | partySize party => exact (c.inner.inBounds_partyWires party).map _
  | _ => exact avoids_ok _ _

/-- No request reads past an end. -/
theorem inBounds_respondAny (c : Layered P G) (request : Request) :
    Avoids .outOfRange (c.respondAny request).1 := by
  have hpin : ∀ {result : Except Error (Layered P G)}, Avoids .outOfRange result →
      Avoids .outOfRange (c.respondPinning result).1 := by
    intro result hresult
    cases result with
    | ok c' => exact avoids_ok _ _
    | error e => exact hresult.rethrow rfl
  cases request with
  | common request => exact (c.inBounds_respond request).map _
  | setInputKeys keys => exact hpin (c.inBounds_setInputKeys keys)
  | setOutputKeys keys => exact hpin (c.inBounds_setOutputKeys keys)
  | verifyHashed seed inputKeys outputKeys d digest =>
    exact (c.inBounds_verifyHashed seed inputKeys outputKeys d digest).map _
  | _ => exact avoids_ok _ _

/-- A circuit with free Xor has passed the check of its wires. Whatever it is asked, no answer is
an error of a read or a copy past an end, and no audit refuses because of one. The same goes for
any circuit that was put into layers, whatever its scheme claims or gives and its generators refuse.
The blocks of the scheme are never empty, and what is copied into a table is one block. The copies
and splits that nothing refuses fit as well. -/
theorem no_session_reads_past_an_end (inner : FreeXor G) :
    (∀ requests : List (Garbling.Request Bytes Tables),
      let c := Session.after FreeXor.respond inner requests
      (∀ answer ∈ Session.answers FreeXor.respond inner requests, answer ≠ .error .outOfRange) ∧
      ∀ pairs r, r.PastEnd → c.audit pairs ≠ .error r) ∧
    (∀ (scheme : Scheme) (generator : P) (start : Layered P G),
      ofInner inner scheme generator = .ok start → ∀ requests : List Request,
        let c := Session.after respondAny start requests
        (∀ answer ∈ Session.answers respondAny start requests, answer ≠ .error .outOfRange) ∧
        (∀ pairs r, r.PastEnd → c.audit pairs ≠ .error r) ∧
        0 < c.scheme.cipherSize ∧
        ∀ k plaintext block, IdentityGate.encryptBlock c.scheme k plaintext = .ok block →
          block.length = c.scheme.cipherSize) ∧
    CopiesFit := by
  refine ⟨fun requests => ?_, fun scheme generator start hstart requests => ?_, copiesFit⟩
  · refine ⟨Session.answers_all FreeXor.inBounds_respond inner requests, ?_⟩
    intro pairs r hr
    exact FreeXor.inBounds_audit _ hr pairs
  · obtain ⟨hsize, _⟩ := ofInner_eq_ok.1 hstart
    obtain ⟨hfollows, _⟩ := after_keeps hstart requests
    refine ⟨Session.answers_all inBounds_respondAny start requests, ?_, ?_, ?_⟩
    · intro pairs r hr
      exact inBounds_audit hr _ pairs
    · rw [hfollows.scheme, (ofInner_eq_ok.1 hstart).2]
      exact Nat.lt_of_lt_of_le (by decide) hsize
    · intro k plaintext block h
      exact (IdentityGate.encryptBlock_eq_ok.1 h).2

end

/-- A scheme that claims larger blocks than it gives, and that decrypts every block to nothing. -/
def faultyScheme : Scheme := { Scheme.block.claiming 20 with decrypt := fun _ _ => .ok [] }

/-- One wire, with this scheme and with a generator that answers once. -/
def faultyWire : Layered (Metered (StreamGenerator .aesCounter)) (StreamGenerator .aesCounter) where
  inner := newWire.inner
  scheme := faultyScheme
  generator := { source := {}, left := some 1 }

/-- Tables of wrong lengths and of the right one, keys for them, and a seed. -/
def hostileRequests : List Request :=
  let tables : Bytes → LayeredTables := fun table =>
    { inner := ⟨[]⟩, input := some ⟨[some table]⟩, output := some ⟨[none]⟩ }
  [.common (.setTables (tables [1, 2, 3])), .common (.compute (Bytes.zeros 20)),
    .common (.setTables (tables (Bytes.zeros 80))), .common (.compute (Bytes.zeros 20)),
    .common (.verify (Bytes.zeros 40)), .common (.garbleSeeded (Bytes.zeros 16)),
    .common (.setTranslation [7, 7]),
    .common (.translate { garbled := [], inner := Bytes.zeros 16 })]

theorem hostile_session_reads_nothing_past_an_end :
    ofInner newWire.inner faultyScheme faultyWire.generator = .ok faultyWire ∧
      (∀ answer ∈ Session.answers respondAny faultyWire hostileRequests,
        answer ≠ .error .outOfRange) ∧
      ∀ pairs r, r.PastEnd →
        (Session.after respondAny faultyWire hostileRequests).audit pairs ≠ .error r := by
  have hstart : ofInner newWire.inner faultyScheme faultyWire.generator = .ok faultyWire := rfl
  obtain ⟨_, hlayered, _⟩ := no_session_reads_past_an_end
    (P := Metered (StreamGenerator .aesCounter)) newWire.inner
  obtain ⟨hanswers, haudit, _⟩ := hlayered _ _ _ hstart hostileRequests
  exact ⟨hstart, hanswers, haudit⟩

end Layered

end Garbling
