-- What the tweak that the first gates share gives away. Let the left wire
-- of the first gate be the first output wire as well. The rows of its
-- table then hold, under the same tweak, the hashes of the labels that
-- the identity gate of the output takes for the keys of its cipher. Who
-- evaluates the circuit on a deciding right bit can read off the hash of
-- the label that is not his, and with it the other pinned output key, or
-- make a row that this label opens.
import Garbling.Proofs.IdentityAcceptance
import Garbling.Proofs.Layered.Completeness
import Garbling.Proofs.Layered.Preparation
import Garbling.Proofs.Layered.Received
import Garbling.Proofs.TweakSeparation

namespace Garbling

/-- Two bits of one party. The first one is the output as well, and their conjunction goes
unused. -/
def Layered.leftWire : Layered (StreamGenerator .aesCounter) (StreamGenerator .aesCounter) where
  inner := { circuit := ⟨[2], [.and 0 1], [0]⟩, valid := by decide +kernel, generator := {} }
  scheme := .block
  generator := {}

theorem Layered.isNew_leftWire : leftWire.IsNew ⟨[2], [.and 0 1], [0]⟩ .block :=
  ⟨{}, _, {}, rfl, rfl⟩

/-! ## Off a garbled table -/

namespace GateTable

/-- The hash of the other label of the left wire, for the holder of one label of each wire. It is
in the row of that other label, next to the hash of the right label and to an output label, for
which the one of the own row is taken. -/
def otherHash? (hash : Block → Block → Block) (gate : Nat) (table : Bytes) (a b : Block) :
    Option Block := do
  let own ← open? (pairHashWith hash) gate table a b
  let row ← row? table (2 * (!a.signal).toNat + b.signal.toNat)
  return row ^^^ (hash (gateTweaks gate).2 b ^^^ own)

/-- Where the left bit does not matter for the gate, both rows hold the same output label. -/
theorem otherHash?_of_opens {hash : Block → Block → Block} {gate : Nat}
    {op : Bool → Bool → Bool} {offset a b c : Block} {table : Bytes} (hs : offset.signal = true)
    (hopen : ∀ x y, open? (pairHashWith hash) gate table (labelFor offset a x)
      (labelFor offset b y) = some (labelFor offset c (op x y)))
    {x y : Bool} (hop : op (!x) y = op x y) :
    otherHash? hash gate table (labelFor offset a x) (labelFor offset b y) =
      some (hash (gateTweaks gate).1 (labelFor offset a (!x))) := by
  have hindex : 2 * (!(labelFor offset a x).signal).toNat + (labelFor offset b y).signal.toNat =
      rowIndex (labelFor offset a (!x)) (labelFor offset b y) := by
    rw [rowIndex, signal_labelFor hs, signal_labelFor hs, signal_labelFor hs, Bool.xor_not]
  have hrow := open?_eq_some_iff.1 (hopen (!x) y)
  rw [otherHash?, hopen x y, hindex, hrow, hop, pairHashWith]
  simp only [Option.bind_eq_bind, Option.bind_some, Option.pure_def, Option.some.injEq]
  rw [BitVec.xor_assoc (hash _ _) (hash _ _), BitVec.xor_assoc, BitVec.xor_self, BitVec.xor_zero]

end GateTable

/-! ## Through an identity gate -/

namespace IdentityGate

/-- One of the four ciphertexts of a table, decrypted with a key of the cipher. -/
def plainPart? (cipherKey : Block) (table : Bytes) (part : Nat) : Option Bytes :=
  (part? .block table part).map fun ciphertext =>
    ((Cipher.RoundKeys.ofKey cipherKey).decrypt (Block.ofBytes ciphertext)).toBytes

/-- The output key in the first row whose sentinel a key of the cipher decrypts to zeros. -/
def openWith? (cipherKey : Block) (table : Bytes) : Option Bytes := do
  let sentinel ← plainPart? cipherKey table 1
  plainPart? cipherKey table (if sentinel.isZero then 0 else 2)

/-- The key of the cipher for an input key of the gate. -/
def cipherKey (gate : UInt32) (key : Bytes) : Block :=
  fixedHash (Tweak.block ⟨gate⟩) (Block.ofBytes key)

section

variable {gate : UInt32} {key table : Bytes} {k : Keying}

theorem keying_block (hkey : key.length = Block.size) :
    keying .block gate key = .ok { key := some ⟨[key]⟩, tweak := some ⟨gate⟩ } := by
  refine keying_eq_ok.2 ⟨⟨[key]⟩, ?_, rfl⟩
  simp [Scheme.block, Scheme.BlockScheme.multiKey, hkey]

theorem cipher_of_keying (hkey : key.length = Block.size) (hk : keying .block gate key = .ok k) :
    Scheme.BlockScheme.cipher k = .ok (.ofKey (cipherKey gate key)) := by
  have hone : ∀ b, (⟨[key]⟩ : MultiKey).Counts b ↔ b = Block.ofBytes key :=
    MultiKey.counts_singleton hkey
  rw [keying_block hkey, Except.ok.injEq] at hk
  subst hk
  exact congrArg (fun sum => Except.ok (Cipher.RoundKeys.ofKey sum))
    (MultiKey.sumOfHashes_of_one hone (Tweak.block ⟨gate⟩))

/-- The key of the cipher decrypts what the input key does. -/
theorem decryptPart_eq_ok_iff (hkey : key.length = Block.size)
    (hk : keying .block gate key = .ok k) {part : Nat} {plain : Bytes} :
    decryptPart .block k table part = .ok plain ↔
      plainPart? (cipherKey gate key) table part = some plain := by
  rw [decryptPart_eq_ok, plainPart?, Option.map_eq_some_iff]
  refine exists_congr fun ciphertext => and_congr_right fun hpart => ?_
  constructor
  · intro h
    obtain ⟨keys, hkeys, _, rfl⟩ := Scheme.BlockScheme.decrypt_eq_ok.1 h
    rw [cipher_of_keying hkey hk, Except.ok.injEq] at hkeys
    rw [hkeys]
  · rintro rfl
    exact Scheme.BlockScheme.decrypt_eq_ok.2
      ⟨_, cipher_of_keying hkey hk, Bytes.length_of_slice? hpart, rfl⟩

theorem length_of_plainPart? {cipherKey : Block} {part : Nat} {plain : Bytes}
    (h : plainPart? cipherKey table part = some plain) : plain.length = Block.size := by
  obtain ⟨_, _, rfl⟩ := Option.map_eq_some_iff.1 h
  exact Block.length_toBytes _

/-- Whoever has the key of the cipher for an input key finds the output key as well. -/
theorem openWith?_of_opens (hkey : key.length = Block.size) {second : Bool} {output : Bytes}
    (h : Opens .block gate table Block.size key second output) :
    openWith? (cipherKey gate key) table = some output := by
  obtain ⟨k, hk, hopened, hpayload⟩ := h
  obtain ⟨sentinel, hsentinel, hfirst⟩ := bind_eq_ok.1 (openedRows_eq_ok.1 hopened).1
  rw [payload?_eq] at hpayload
  obtain ⟨plain, hplain, hpayload⟩ := bind_eq_ok.1 hpayload
  have hzero : sentinel.isZero = !second := pure_eq_ok.1 hfirst
  rw [decryptPart_eq_ok_iff hkey hk] at hplain hsentinel
  have hrow : (if sentinel.isZero = true then 0 else 2) = 2 * second.toNat := by
    rw [hzero]
    cases second <;> rfl
  rw [openWith?, hsentinel]
  simp only [Option.bind_eq_bind, Option.bind_some, hrow, hplain]
  split at hpayload
  · cases hpayload
  · cases hpayload
    rw [← length_of_plainPart? hplain, List.take_length]

/-! ### A forged table -/

/-- A table with an output key in its first row, made with nothing but a key of the cipher. There
are only zeros in the place of the second row. -/
def forgedTable (cipherKey output : Block) : Bytes :=
  let keys := Cipher.RoundKeys.ofKey cipherKey
  ((keys.encrypt output).toBytes ++ (keys.encrypt 0).toBytes) ++
    (Bytes.zeros Block.size ++ Bytes.zeros Block.size)

theorem plainPart?_forgedTable (cipherKey output : Block) :
    plainPart? cipherKey (forgedTable cipherKey output) 0 = some output.toBytes ∧
      plainPart? cipherKey (forgedTable cipherKey output) 1 = some (Block.toBytes 0) ∧
      ∃ plain, plainPart? cipherKey (forgedTable cipherKey output) 3 = some plain := by
  let keys := Cipher.RoundKeys.ofKey cipherKey
  let parts : Nat → Bytes := fun i =>
    [(keys.encrypt output).toBytes, (keys.encrypt 0).toBytes].getD i (Bytes.zeros Block.size)
  have hlen : ∀ i < 4, (parts i).length = Scheme.block.cipherSize := by
    intro i hi
    match i with
    | 0 => exact Block.length_toBytes _
    | 1 => exact Block.length_toBytes _
    | 2 => rfl
    | 3 => rfl
  have hpart : ∀ i < 4, plainPart? cipherKey (forgedTable cipherKey output) i =
      some (keys.decrypt (Block.ofBytes (parts i))).toBytes := by
    intro i hi
    have hrows : part? .block (forgedTable cipherKey output) i = some (parts i) :=
      part?_rows hlen hi
    rw [plainPart?, hrows, Option.map_some]
  refine ⟨?_, ?_, ⟨_, hpart 3 (by decide)⟩⟩
  · rw [hpart 0 (by decide)]
    show some (keys.decrypt (Block.ofBytes (keys.encrypt output).toBytes)).toBytes = _
    rw [Block.ofBytes_toBytes, Cipher.RoundKeys.decrypt_encrypt]
  · rw [hpart 1 (by decide)]
    show some (keys.decrypt (Block.ofBytes (keys.encrypt 0).toBytes)).toBytes = _
    rw [Block.ofBytes_toBytes, Cipher.RoundKeys.decrypt_encrypt]

theorem length_forgedTable (cipherKey output : Block) :
    (forgedTable cipherKey output).length = tableSize .block := by
  simp [forgedTable, tableSize, Scheme.block, Block.length_toBytes, Bytes.length_zeros, Block.size]

/-- The input key takes what was forged with its key of the cipher for a row of its own. -/
theorem compute_forgedTable (hkey : key.length = Block.size) (output : Block) :
    compute .block gate (forgedTable (cipherKey gate key) output) key Block.size =
      .ok output.toBytes := by
  obtain ⟨k, hk⟩ : ∃ k, keying .block gate key = .ok k := ⟨_, keying_block hkey⟩
  obtain ⟨hpayload, hsentinel, plain, hother⟩ := plainPart?_forgedTable (cipherKey gate key) output
  rw [← decryptPart_eq_ok_iff hkey hk] at hpayload hsentinel hother
  have hfirst : opens .block k (forgedTable (cipherKey gate key) output) 0 = .ok true := by
    rw [opens, hsentinel]
    rfl
  have hsecond : opens .block k (forgedTable (cipherKey gate key) output) 1 =
      .ok plain.isZero := by
    rw [opens, hother]
    rfl
  have hopened := openedRows_eq_ok.2 ⟨hfirst, hsecond⟩
  have hpayload : payload? .block k (forgedTable (cipherKey gate key) output) 0 Block.size =
      .ok (some output.toBytes) := by
    have hlen := Block.length_toBytes output
    rw [payload?_eq, hpayload, ok_bind, List.drop_of_length_le (Nat.le_of_eq hlen), hlen,
      if_neg (by simp [Bytes.isZero]), ← hlen, List.take_length]
    rfl
  unfold compute
  simp only [length_forgedTable, ne_eq, not_true, if_false, hk, ok_bind, hopened, Bool.not_true,
    Bool.false_and, Bool.false_eq_true, if_true, hpayload]
  rfl

end

end IdentityGate

/-! ## Out of the tables of a circuit -/

/-- The gate reads the wires `x` and `y` and has a table, and the bit of `y` alone decides its
value. -/
def Gate.DecidedBy (gate : Gate Nat) (x y : Nat) (bit : Bool) : Prop :=
  (gate = .and x y ∧ bit = false) ∨ (gate = .or x y ∧ bit = true)

namespace FreeXor

variable {G : Type}

theorem outputWire_of_getElem? {c : FreeXor G} {j x : Nat} (h : c.circuit.outputs[j]? = some x) :
    j < c.outputCount ∧ c.outputWire j = x := by
  refine ⟨(List.getElem?_eq_some_iff.1 h).1, ?_⟩
  rw [outputWire, List.getD_eq_getElem?_getD, h, Option.getD_some]

theorem otherHash?_of_auditTable {c : FreeXor G} (hhash : c.hash = fixedPairHash) {g : Nat}
    {op : Bool → Bool → Bool} {offset a b zero : Block} (hs : offset.signal = true)
    (h : c.auditTable offset g op a b = .ok zero) {x y : Bool} (hop : op (!x) y = op x y) :
    ∃ table, c.tables.get? g = some table ∧
      GateTable.otherHash? fixedHash g table (labelFor offset a x) (labelFor offset b y) =
        some (fixedHash (gateTweaks g).1 (labelFor offset a (!x))) := by
  obtain ⟨table, htable, haudit⟩ := of_auditTable h
  rw [hhash, ← pairHashWith_fixedHash] at haudit
  exact ⟨table, htable, GateTable.otherHash?_of_opens hs (GateTable.of_audit haudit).2 hop⟩

/-- Of any gate that a right bit decides, an honest table shows the hash of the other left
label. -/
theorem Honest.otherHash?_eq_some {c : FreeXor G} {keys : KeyMaterial} {offset : Block}
    {zero : Nat → Block} (honest : c.Honest keys offset zero) (hhash : c.hash = fixedPairHash)
    {g : Nat} {gate : Gate Nat} (hgate : c.circuit.gates[g]? = some gate) {x y : Nat} {bit : Bool}
    (hdecided : gate.DecidedBy x y bit) (own : Bool) : ∃ table, c.tables.get? g = some table ∧
      GateTable.otherHash? fixedHash g table (labelFor offset (zero x) own)
        (labelFor offset (zero y) bit) =
        some (fixedHash (gateTweaks g).1 (labelFor offset (zero x) (!own))) := by
  have haudit := honest.audits g gate hgate
  rcases hdecided with ⟨rfl, rfl⟩ | ⟨rfl, rfl⟩
  · exact otherHash?_of_auditTable hhash honest.signal haudit (by rw [Bool.and_false, Bool.and_false])
  · exact otherHash?_of_auditTable hhash honest.signal haudit (by rw [Bool.or_true, Bool.or_true])

end FreeXor

theorem Gate.DecidedBy.mem_operands {gate : Gate Nat} {x y : Nat} {bit : Bool}
    (h : gate.DecidedBy x y bit) : x ∈ gate.operands ∧ y ∈ gate.operands := by
  rcases h with ⟨rfl, _⟩ | ⟨rfl, _⟩ <;> simp [operands]

namespace Layered

variable {P G : Type}

/-- What the table of the first gate shows to the evaluator with one key for each input wire. The
gate reads the wires `x` and `y`. -/
def shownHash? (c : Layered P G) (x y : Nat) (input : Bytes) : Option Block := do
  let inner ← (c.input.compute c.scheme c.inner.inputCount input c.scheme.cipherSize
    FreeXor.keySize).toOption
  let a ← KeyArray.keyAt? FreeXor.keySize inner x
  let b ← KeyArray.keyAt? FreeXor.keySize inner y
  let table ← c.inner.tables.get? 0
  GateTable.otherHash? fixedHash 0 table (Block.ofBytes a) (Block.ofBytes b)

/-- The other key of the first output wire, opened with the hash that is shown. -/
def otherOutputKey? (c : Layered P G) (x y : Nat) (input : Bytes) : Option Bytes := do
  let cipherKey ← c.shownHash? x y input
  let tables ← c.output.tables
  let table ← tables.get? 0
  IdentityGate.openWith? cipherKey table

/-- The tables of the circuit, with a table for its one output that is forged with the hash that
is shown. -/
def forgedTables? (c : Layered P G) (x y : Nat) (input : Bytes) (output : Block) :
    Option LayeredTables := do
  let cipherKey ← c.shownHash? x y input
  return { c.tables with output := some ⟨[some (IdentityGate.forgedTable cipherKey output)]⟩ }

section

variable {c : Layered P G} {keys : KeyMaterial} {offset : Block} {zero : Nat → Block}

/-- Without a layer of their own, the reported input keys are those of the inner circuit. -/
theorem Honest.of_unlayered_input (honest : c.Honest keys offset zero)
    (h : c.input.layered = false) : c.inputKeySize = FreeXor.keySize ∧
      c.input.SentinelsDiffer c.scheme ∧ keys.inputKeys = c.inner.inputPairs offset zero := by
  rcases honest.input with ⟨_, htables, hsame⟩ | ⟨_, hlayered, _⟩
  · refine ⟨?_, ?_, congrArg Layer.Keys.bytes hsame⟩
    · rw [inputKeySize, sideKeySize, h]
      rfl
    · intro tables hmem
      rw [htables] at hmem
      cases hmem
  · rw [h] at hlayered
    cases hlayered

/-- The evaluator comes by the inner labels for the bits of the input. -/
theorem Honest.innerLabels (honest : c.Honest keys offset zero) (law : c.scheme.Lawful)
    (hin : c.input.SentinelsDiffer c.scheme) (bit : Nat → Bool) : ∃ inner,
      c.input.compute c.scheme c.inner.inputCount
        (KeyArray.choose c.inputKeySize c.inner.inputCount keys.inputKeys bit)
        c.scheme.cipherSize FreeXor.keySize = .ok inner ∧
      ∀ w < c.inner.inputCount, KeyArray.keyAt? FreeXor.keySize inner w =
        some (labelFor offset (zero w) (bit w)).toBytes := by
  have hcompute := (honest.input.leads law hin).compute
    (fun hlayered => inputKeySize_of_layered hlayered) (fun _ => rfl) bit
  refine ⟨KeyArray.choose FreeXor.keySize c.inner.inputCount (c.inner.inputPairs offset zero) bit,
    hcompute, fun w hw => ?_⟩
  have hlen := FreeXor.length_inputPairs c.inner offset zero
  rw [KeyArray.keyAt?_choose hlen hw, FreeXor.inputPairs, FreeXor.keyFor_labelPairs hw]

/-- The table of the first output wire opens with the labels of that wire to its pinned keys. -/
theorem Honest.opens_first_output (honest : c.Honest keys offset zero) (law : c.scheme.Lawful)
    (hlayered : c.output.layered = true) (hout : c.output.SentinelsDiffer c.scheme) {x : Nat}
    (hwire : c.inner.circuit.outputs[0]? = some x) (bit : Bool) : ∃ tables table second,
      c.output.tables = some tables ∧ tables.get? 0 = some table ∧
      IdentityGate.Opens c.scheme 0 table c.scheme.cipherSize
        (labelFor offset (zero x) bit).toBytes second
        (KeyArray.keyFor c.scheme.cipherSize keys.outputKeys 0 bit) := by
  obtain ⟨hfirst, hx⟩ := FreeXor.outputWire_of_getElem? hwire
  rcases honest.output with ⟨hnone, _⟩ | ⟨tables, _, htables, _, hlayer⟩
  · rw [hlayered] at hnone
    cases hnone
  obtain ⟨table, second, htable, _, hopens⟩ :=
    hlayer.opensAt law (hout.at htables) hfirst
  have hopen := hopens bit
  rw [outputKeySize_of_layered hlayered, FreeXor.outputPairs_eq,
    FreeXor.keyFor_labelPairs hfirst, hx] at hopen
  exact ⟨tables, table, _, htables, htable, hopen⟩

/-- The hash that the table of the first gate shows is the key of the cipher at the first identity
gate. -/
theorem Honest.shownHash?_eq_some (honest : c.Honest keys offset zero) (law : c.scheme.Lawful)
    (hhash : c.inner.hash = fixedPairHash) (hin : c.input.SentinelsDiffer c.scheme)
    {gate : Gate Nat} (hgate : c.inner.circuit.gates[0]? = some gate) {x y : Nat}
    {bit : Nat → Bool} (hdecided : gate.DecidedBy x y (bit y)) :
    c.shownHash? x y (KeyArray.choose c.inputKeySize c.inner.inputCount keys.inputKeys bit) =
      some (IdentityGate.cipherKey 0 (labelFor offset (zero x) (!bit x)).toBytes) := by
  obtain ⟨_, hinner⟩ := honest.inner
  obtain ⟨inner, hcompute, hlabels⟩ := honest.innerLabels law hin bit
  obtain ⟨hx, hy⟩ := hdecided.mem_operands
  have hx' : x < c.inner.inputCount := c.inner.valid.operand_lt hgate hx
  have hy' : y < c.inner.inputCount := c.inner.valid.operand_lt hgate hy
  obtain ⟨table, htable, hshown⟩ := hinner.otherHash?_eq_some hhash hgate hdecided (bit x)
  -- the first tweak of the gate is the tweak of the identity gate
  have htweak : (gateTweaks 0).1 = Tweak.block ⟨0⟩ :=
    (gateTweaks_fst_eq_block_iff (by decide)).2 ⟨rfl, rfl⟩
  rw [shownHash?, hcompute, IdentityGate.cipherKey, Block.ofBytes_toBytes, ← htweak]
  simp only [Except.toOption, Option.bind_eq_bind, Option.bind_some, hlabels x hx', hlabels y hy',
    htable, Block.ofBytes_toBytes, hshown]

theorem Honest.otherOutputKey?_eq_some (honest : c.Honest keys offset zero)
    (hscheme : c.scheme = .block) (hhash : c.inner.hash = fixedPairHash)
    (hlayered : c.output.layered = true) (hin : c.input.SentinelsDiffer c.scheme)
    (hout : c.output.SentinelsDiffer c.scheme) {gate : Gate Nat}
    (hgate : c.inner.circuit.gates[0]? = some gate) {x y : Nat}
    (hwire : c.inner.circuit.outputs[0]? = some x) {bit : Nat → Bool}
    (hdecided : gate.DecidedBy x y (bit y)) :
    c.otherOutputKey? x y
        (KeyArray.choose c.inputKeySize c.inner.inputCount keys.inputKeys bit) =
      some (KeyArray.keyFor Block.size keys.outputKeys 0 (!bit x)) := by
  have law : c.scheme.Lawful := hscheme ▸ Scheme.lawful_block
  have hshown := honest.shownHash?_eq_some law hhash hin hgate hdecided
  obtain ⟨tables, table, second, htables, htable, hopens⟩ :=
    honest.opens_first_output law hlayered hout hwire (!bit x)
  rw [hscheme] at hopens
  rw [otherOutputKey?, hshown]
  simp only [Option.bind_eq_bind, Option.bind_some, htables, htable]
  exact IdentityGate.openWith?_of_opens (Block.length_toBytes _) hopens

end

section

variable [Generator P] [Generator G]

theorem Prepared.garbled {start c c' : Layered P G} {inputKeys outputKeys : Option Bytes}
    (h : start.Prepared inputKeys outputKeys c) {keys : KeyMaterial} (hgarbles : c.Garbles keys c') :
    start.Prepared inputKeys outputKeys c' := by
  cases hgarbles with
  | random key rows hgarble =>
    have hnext := Prepared.garble h key rows
    rwa [hgarble] at hnext
  | seeded seed hgarble =>
    have hnext := Prepared.garbleSeeded h seed
    rwa [hgarble] at hnext

/-- The first gate of a circuit has a table, and its left wire is the first output wire too. With
the scheme of sixteen-byte blocks and pinned output keys, any garbling that passes its audit lets
the evaluator read off both keys of that output: his own by evaluating, and the one for the other
bit from the tables, whenever the right bit decides the gate. -/
theorem evaluator_reads_both_keys_of_a_shared_first_wire {circuit : Circuit}
    {start c c' : Layered P G} (hstart : start.IsNew circuit .block) {inputKeys : Option Bytes}
    {outputKeys : Bytes} (hprepared : start.Prepared inputKeys (some outputKeys) c)
    {keys : KeyMaterial} (hgarbles : c.Garbles keys c') (hverify : c'.verify keys.inputKeys = true)
    {gate : Gate Nat} (hgate : circuit.gates[0]? = some gate) {x y : Nat}
    (hwire : circuit.outputs[0]? = some x) {bit : Nat → Bool} (hbit : circuit.Carries bit)
    (hdecided : gate.DecidedBy x y (bit y)) :
    let input := KeyArray.choose c'.inputKeySize circuit.inputCount keys.inputKeys bit
    (∃ output, c'.compute input = .ok output ∧ KeyArray.keyAt? Block.size output.garbled 0 =
      some (KeyArray.keyFor Block.size outputKeys 0 (bit x))) ∧
    c'.otherOutputKey? x y input = some (KeyArray.keyFor Block.size outputKeys 0 (!bit x)) := by
  obtain ⟨hcircuit, hhash, hscheme, _, hpinned, offset, zero, honest⟩ :=
    hprepared.honest hstart hgarbles
  obtain ⟨_, _, _, hinput, houtput⟩ := hstart.eq
  have hready := ((hprepared.garbled hgarbles).ready hinput houtput).2
  have hlayered : c'.output.layered = true := by
    rw [hready.output.layered, hpinned]
    rfl
  have law : c'.scheme.Lawful := hscheme ▸ Scheme.lawful_block
  obtain ⟨_, haudit, _⟩ := verify_eq_true.1 hverify
  obtain ⟨hin, hout⟩ := honest.sentinelsDiffer_of_audit haudit
  obtain ⟨_, hinner⟩ := honest.inner
  rw [← honest.outputPinned outputKeys hpinned]
  rw [← hcircuit] at hgate hwire hbit ⊢
  refine ⟨⟨_, compute_choose (honest.encodes law hin hout) honest.garbled hinner.garbled hbit, ?_⟩,
    honest.otherOutputKey?_eq_some hscheme hhash hlayered hin hout hgate hwire hdecided⟩
  obtain ⟨hfirst, hx⟩ := FreeXor.outputWire_of_getElem? hwire
  have hsize : c'.outputKeySize = Block.size := by
    rw [outputKeySize_of_layered hlayered, hscheme]
    rfl
  have hlen := (honest.encodes law hin hout).outputLength
  rw [hsize] at hlen ⊢
  rw [KeyArray.keyAt?_choose hlen hfirst, hx]

end

end Layered

/-! ## A forged row -/

/-- One identity gate with a forged table, on the key that it was forged for. -/
theorem Layer.compute_forgedTable {key : Bytes} (hkey : key.length = FreeXor.keySize)
    (output : Block) : Layer.compute .block
      ⟨[some (IdentityGate.forgedTable (IdentityGate.cipherKey 0 key) output)]⟩ 1
      ⟨key, FreeXor.keySize⟩ Block.size = .ok output.toBytes := by
  have hat : (⟨key, FreeXor.keySize⟩ : Keys).keyAt? 0 = some key := by
    rw [Keys.keyAt?, KeyArray.keyAt?, Nat.zero_mul, Bytes.slice?_eq_some_iff]
    exact ⟨Nat.le_of_eq ((Nat.zero_add _).trans hkey.symm),
      by rw [List.drop_zero, ← hkey, List.take_length]⟩
  have hgate : gateNumber 0 = 0 := rfl
  have hopened : IdentityGate.compute .block 0 _ key Block.size = .ok output.toBytes :=
    IdentityGate.compute_forgedTable hkey output
  simp only [compute, List.range_one, List.mapM_cons, List.mapM_nil, computeAt, Tables.get?,
    List.getElem?_cons_zero, Option.join_some, hat, inRange, ok_bind, hgate, hopened]
  rfl

theorem Side.active_receive_own {side : Side} (h : side.tables.isSome = side.layered) :
    (side.receive side.tables).active = side.active :=
  Side.active_congr ((Side.receive_layered _ _).trans h) (Side.receive_tables _ _)

theorem FreeXor.compute_choose_of_output {G : Type} {c : FreeXor G} {offset : Block}
    {zero : Nat → Block} (h : c.Encodes offset zero) (hg : c.garbled = true) {bit : Nat → Bool}
    (hbit : c.circuit.Carries bit) {x : Nat} (houtputs : c.circuit.outputs = [x]) :
    c.compute (KeyArray.choose keySize c.inputCount (c.inputPairs offset zero) bit) =
      .ok (labelFor offset (zero x) (bit x)).toBytes := by
  rw [compute_choose h hg hbit, choose_outputPairs, houtputs]
  exact congrArg Except.ok (List.append_nil _)

namespace Layered

variable {P G : Type}

section

variable {c : Layered P G} {keys : KeyMaterial} {offset : Block} {zero : Nat → Block} {x : Nat}

/-- A circuit with one output takes over a forged table for it, and then evaluates to what was
forged where the output has the label of the forged row. -/
theorem Honest.compute_forged (honest : c.Honest keys offset zero) (hscheme : c.scheme = .block)
    (hin : c.input.SentinelsDiffer c.scheme) (houtputs : c.inner.circuit.outputs = [x])
    {bit : Nat → Bool} (hbit : c.inner.circuit.Carries bit) (output : Block) :
    let key := (labelFor offset (zero x) (bit x)).toBytes
    let forged := IdentityGate.forgedTable (IdentityGate.cipherKey 0 key) output
    ∃ c', c.setTables { c.tables with output := some ⟨[some forged]⟩ } = (.ok (), c') ∧
      c'.compute (KeyArray.choose c.inputKeySize c.inner.inputCount keys.inputKeys bit) =
        .ok ⟨output.toBytes, key⟩ := by
  intro key forged
  have law : c.scheme.Lawful := hscheme ▸ Scheme.lawful_block
  obtain ⟨_, hinner⟩ := honest.inner
  have hone : c.inner.outputCount = 1 := congrArg List.length houtputs
  have haccepts := honest.accepts (e := c) rfl
  refine ⟨_, setTables_eq_ok.2 ⟨⟨haccepts.inner, haccepts.input, ?_⟩, rfl⟩, ?_⟩
  · rintro tables ⟨⟩
    rw [hone]
    exact ⟨rfl, by decide⟩
  let c' := c.receive { c.tables with output := some ⟨[some forged]⟩ }
  have hsize : c'.inputKeySize = c.inputKeySize := by
    rw [inputKeySize, sideKeySize, show c'.input.layered = c.input.layered from
      (Side.receive_layered _ _).trans honest.input.isSome_tables]
    rfl
  have hlen : (KeyArray.choose c.inputKeySize c.inner.inputCount keys.inputKeys bit).length =
      c'.inner.inputCount * c'.inputKeySize := by
    rw [hsize]
    exact KeyArray.length_choose
      (honest.input.sourceLength (FreeXor.length_inputPairs _ _ _)) bit
  have hinput : c'.input.compute c'.scheme c'.inner.inputCount
      (KeyArray.choose c.inputKeySize c.inner.inputCount keys.inputKeys bit) c'.scheme.cipherSize
      FreeXor.keySize = .ok (KeyArray.choose FreeXor.keySize c'.inner.inputCount
        (c'.inner.inputPairs offset zero) bit) := by
    have hcompute := (honest.input.leads law hin).compute
      (fun hlayered => inputKeySize_of_layered hlayered) (fun _ => rfl) bit
    unfold Side.compute at hcompute ⊢
    rw [show c'.input.active = c.input.active from
      Side.active_receive_own honest.input.isSome_tables]
    exact hcompute
  have hinner' := FreeXor.compute_choose_of_output
    (hinner.encodes.received (e := c'.inner) rfl rfl rfl) rfl hbit houtputs
  have houtput : c'.output.compute c'.scheme c'.inner.outputCount key FreeXor.keySize
      c'.scheme.cipherSize = .ok output.toBytes := by
    have hforged : c'.output.active = .ok (some ⟨[some forged]⟩) := rfl
    rw [Side.compute, hforged, show c'.scheme = .block from hscheme,
      show c'.inner.outputCount = 1 from hone]
    exact Layer.compute_forgedTable (Block.length_toBytes _) output
  show c'.compute _ = _
  rw [compute_eq rfl hlen, hinput, ok_bind, hinner', ok_bind, houtput]
  rfl

/-- The wires `x` and `y` are read by the first gate, and the first of them is the only output.
From one key for each wire and a deciding bit of `y`, a table is forged that gives any output key
to whoever has the other bit of `x`. -/
theorem Honest.forgedTables?_eq_some (honest : c.Honest keys offset zero)
    (hscheme : c.scheme = .block) (hhash : c.inner.hash = fixedPairHash)
    (hin : c.input.SentinelsDiffer c.scheme) {gate : Gate Nat}
    (hgate : c.inner.circuit.gates[0]? = some gate) {y : Nat}
    (houtputs : c.inner.circuit.outputs = [x]) (own : Nat → Bool) {bit : Nat → Bool}
    (hdecided : gate.DecidedBy x y (own y)) (hbit : c.inner.circuit.Carries bit)
    (hother : bit x = !own x) (output : Block) : ∃ tables c',
      c.forgedTables? x y
        (KeyArray.choose c.inputKeySize c.inner.inputCount keys.inputKeys own) output =
        some tables ∧
      c.setTables tables = (.ok (), c') ∧
      c'.compute (KeyArray.choose c.inputKeySize c.inner.inputCount keys.inputKeys bit) =
        .ok ⟨output.toBytes, (labelFor offset (zero x) (bit x)).toBytes⟩ := by
  have law : c.scheme.Lawful := hscheme ▸ Scheme.lawful_block
  have hshown := honest.shownHash?_eq_some law hhash hin hgate hdecided
  obtain ⟨c', hset, hcompute⟩ := honest.compute_forged hscheme hin houtputs hbit output
  refine ⟨_, c', ?_, hset, hcompute⟩
  rw [forgedTables?, hshown, ← hother]
  rfl

end

theorem garbleSeeded_leftWire :
    ∃ keys c, leftWire.garbleSeeded (Bytes.zeros 16) = (.ok keys, c) := by
  have hok : (leftWire.garbleSeeded (Bytes.zeros 16)).1.toOption.isSome = true := by decide +kernel
  rcases hgarble : leftWire.garbleSeeded (Bytes.zeros 16) with ⟨e | keys, c⟩
  · rw [hgarble] at hok
    cases hok
  · exact ⟨keys, c, rfl⟩

/-- The bits 1 and 0, and their conjunction. -/
theorem carries_leftWire : Circuit.Carries ⟨[2], [.and 0 1], [0]⟩ (· == 0) := by
  intro g gate hgate
  cases g with
  | zero =>
    cases hgate
    rfl
  | succ g => cases hgate

/-- The first gate and the first identity gate share a tweak. From the labels for two zeros, a
table is forged that opens with the label for a one. -/
theorem row_forged_from_a_garbled_table_opens_an_identity_gate :
    (gateTweaks 0).1 = Tweak.block ⟨0⟩ ∧
    ∃ keys c tables c', leftWire.garbleSeeded (Bytes.zeros 16) = (.ok keys, c) ∧
      c.forgedTables? 0 1 (KeyArray.choose Block.size 2 keys.inputKeys fun _ => false) 7 =
        some tables ∧
      c.setTables tables = (.ok (), c') ∧
      c'.compute (KeyArray.choose Block.size 2 keys.inputKeys (· == 0)) =
        .ok ⟨Block.toBytes 7, KeyArray.keyFor Block.size keys.inputKeys 0 true⟩ := by
  obtain ⟨keys, c, hgarble⟩ := garbleSeeded_leftWire
  have hgarbles : leftWire.Garbles keys c := .seeded _ hgarble
  obtain ⟨hcircuit, hhash, hscheme, hpinned, _, offset, zero, honest⟩ :=
    Prepared.new.honest isNew_leftWire hgarbles
  have hlayered : c.input.layered = false := by
    have hready := ((Prepared.new.garbled hgarbles).ready rfl rfl).2
    rw [hready.input.layered, hpinned]
    rfl
  obtain ⟨hsize, hin, hkeys⟩ := honest.of_unlayered_input hlayered
  have hgate : c.inner.circuit.gates[0]? = some (.and 0 1) := by rw [hcircuit]; rfl
  have hcount : c.inner.inputCount = 2 := congrArg Circuit.inputCount hcircuit
  obtain ⟨tables, c', hforged, hset, hcompute⟩ := honest.forgedTables?_eq_some hscheme hhash hin
    hgate (congrArg Circuit.outputs hcircuit) (fun _ => false) (.inl ⟨rfl, rfl⟩)
    (hcircuit ▸ carries_leftWire) rfl 7
  have hkey : KeyArray.keyFor FreeXor.keySize keys.inputKeys 0 true =
      (labelFor offset (zero 0) true).toBytes := by
    rw [hkeys]
    exact FreeXor.keyFor_labelPairs (by rw [hcount]; decide)
  rw [hsize, hcount] at hforged hcompute
  refine ⟨rfl, keys, c, tables, c', hgarble, hforged, hset, hcompute.trans ?_⟩
  rw [show Block.size = FreeXor.keySize from rfl, hkey]
  rfl

end Layered

end Garbling
