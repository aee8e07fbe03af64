-- One damaged table among those of an honest garbling. A gate table fails
-- its own audit, a sentinel fails that of its layer, and a changed payload
-- gives one other key: in the input layer, the inner circuit then sees two
-- offsets, and in the output layer the keys are not the reported ones.
import Garbling.Proofs.FreeXor.Tampering
import Garbling.Proofs.IdentityTampering
import Garbling.Proofs.Layered.Completeness
import Garbling.Proofs.Layered.Received

namespace Garbling

/-! ## A damaged layer -/

/-- The array has another key than `keys` for one bit of one wire, and the same keys otherwise. -/
def Layer.Keys.DiffersAt (keys : Keys) (wires : Nat) (bytes : Bytes) (wire : Nat) (changed : Bool) :
    Prop :=
  ∀ w < wires, ∀ bit, KeyArray.keyFor keys.size bytes w bit =
    KeyArray.keyFor keys.size keys.bytes w bit ↔ ¬ (w = wire ∧ bit = changed)

/-- If an honest layer with a damaged table still passes the audit, the damage is a changed byte
of a payload, and the audit gives another key for one bit of the wire of the gate. -/
theorem Layer.Honest.payload_of_audit {s : Scheme} (law : s.Lawful) {tables : Tables} {wires : Nat}
    {source target : Keys} (h : Honest s tables wires source target)
    (hdiffer : ∀ position table, tables.get? position = some table →
      IdentityGate.SentinelsDiffer s table)
    {gate : Nat} {d : Damage} {table output : Bytes} (htable : tables.get? gate = some table)
    (hshows : d.Shows table)
    (haudit : audit s (tables.damage gate d) wires source target.size = .ok output) :
    d.InPayload s.cipherSize ∧ gate < wires ∧ ∃ changed,
      target.DiffersAt wires output gate changed := by
  obtain ⟨_, _, _, hopens'⟩ := opensAt_of_audit haudit
  have hgate : gate < wires := by
    rw [← h.size]
    exact Tables.lt_size_of_get? htable
  obtain ⟨found, second, hfound, hlen, hopens⟩ := h.opensAt law hdiffer hgate
  rw [htable, Option.some.injEq] at hfound
  subst hfound
  obtain ⟨table', second', htable', hlen', hdamaged⟩ := hopens' gate hgate
  rw [Tables.get?_damage_self htable] at htable'
  -- at all other wires the gates are as they were
  have hother : ∀ w < wires, w ≠ gate → ∀ bit, KeyArray.keyFor target.size output w bit =
      KeyArray.keyFor target.size target.bytes w bit := by
    intro w hw hne bit
    obtain ⟨table, second, htable, _, hopens⟩ := h.opensAt law hdiffer hw
    obtain ⟨table', second', htable', _, hdamaged⟩ := hopens' w hw
    rw [Tables.get?_damage_ne hne.symm, htable, Option.some.injEq] at htable'
    subst htable'
    exact (hopens bit).unique law (hdamaged bit)
  cases d with
  | drop => cases htable'
  | replace other =>
    cases htable'
    exact absurd (hlen'.trans hlen.symm) hshows
  | mask position byte =>
    cases htable'
    obtain ⟨hpayload, changed, hkeys⟩ := IdentityGate.payload_of_opens_maskAt law hlen hshows.1
      hshows.2 hopens hdamaged
    refine ⟨hpayload, hgate, changed, fun w hw bit => ?_⟩
    by_cases hwire : w = gate
    · subst hwire
      simp [hkeys bit]
    · simp [hother w hw hwire bit, hwire]

/-- The gate at a position opens one row with either key, and finds these keys in them. -/
def Layer.FindsAt (s : Scheme) (tables : Tables) (source : Keys) (outputSize position : Nat)
    (output : Bool → Bytes) : Prop :=
  ∃ table second, tables.get? position = some table ∧ table.length = IdentityGate.tableSize s ∧
    ∀ bit, IdentityGate.Opens s (gateNumber position) table outputSize
      (KeyArray.keyFor source.size source.bytes position bit) (second ^^ bit) (output bit)

/-- A layer passes the audit if each of its gates finds some keys. -/
theorem Layer.exists_audit {s : Scheme} {tables : Tables} {wires outputSize : Nat} {source : Keys}
    (hslots : tables.size = wires) (hsource : source.bytes.length = 2 * wires * source.size)
    (h : ∀ w < wires, ∃ output, FindsAt s tables source outputSize w output) :
    ∃ output, audit s tables wires source outputSize = .ok output := by
  have hsome : ∀ w, ∃ output, w < wires → FindsAt s tables source outputSize w output := by
    intro w
    by_cases hw : w < wires
    · obtain ⟨output, hfinds⟩ := h w hw
      exact ⟨output, fun _ => hfinds⟩
    · exact ⟨fun _ => [], fun hlt => absurd hlt hw⟩
  let output : Nat → Bool → Bytes := fun w => (hsome w).choose
  have hfinds : ∀ w < wires, FindsAt s tables source outputSize w (output w) :=
    fun w => (hsome w).choose_spec
  have hlen : ∀ w < wires, ∀ bit, (output w bit).length = outputSize := by
    intro w hw bit
    obtain ⟨_, _, _, _, hopens⟩ := hfinds w hw
    exact (hopens bit).length
  let target : Keys :=
    ⟨(List.range wires).flatMap fun w => output w false ++ output w true, outputSize⟩
  have htarget : target.bytes.length = 2 * wires * target.size := KeyArray.length_flatMap_pairs hlen
  have hopensAt : ∀ w < wires, OpensAt s tables source target w := by
    intro w hw
    obtain ⟨table, second, htable, hsize, hopens⟩ := hfinds w hw
    refine ⟨table, second, htable, hsize, fun bit => ?_⟩
    rw [KeyArray.keyFor_flatMap output hlen hw]
    exact hopens bit
  have haudit := audit_of_opensAt hslots hsource htarget hopensAt
  exact ⟨target.bytes, haudit⟩

/-- An honest layer to whole blocks passes the audit with a changed byte in a payload as well. -/
theorem Layer.Honest.exists_audit {s : Scheme} (law : s.Lawful) {tables : Tables} {wires : Nat}
    {source target : Keys} (h : Honest s tables wires source target)
    (hdiffer : ∀ position table, tables.get? position = some table →
      IdentityGate.SentinelsDiffer s table)
    (hsize : target.size = s.cipherSize) {gate : Nat} {d : Damage} {table : Bytes}
    (htable : tables.get? gate = some table) (hshows : d.Shows table)
    (hpayload : d.InPayload s.cipherSize) :
    ∃ output, audit s (tables.damage gate d) wires source target.size = .ok output := by
  refine Layer.exists_audit ((Tables.size_damage _ _ _).trans h.size) h.sourceLength fun w hw => ?_
  obtain ⟨found, second, hfound, hlen, hopens⟩ := h.opensAt law hdiffer hw
  by_cases hwire : w = gate
  · subst hwire
    rw [htable, Option.some.injEq] at hfound
    subst hfound
    cases d with
    | drop | replace _ => exact hpayload.elim
    | mask position byte =>
      rw [hsize] at hopens ⊢
      have hmasked := fun bit => IdentityGate.exists_opens_maskAt law hlen hshows.1 hshows.2
        hpayload (hopens bit)
      exact ⟨fun bit => (hmasked bit).choose, _, second, Tables.get?_damage_self htable,
        (Bytes.length_maskAt _ _ _).trans hlen, fun bit => (hmasked bit).choose_spec⟩
  · refine ⟨_, found, second, ?_, hlen, hopens⟩
    rw [Tables.get?_damage_ne (Ne.symm hwire), hfound]

namespace Side

variable {s : Scheme} {side side' : Side} {wires : Nat} {source target : Layer.Keys}

theorem audit_congr (hlayered : side'.layered = side.layered) (htables : side'.tables = side.tables)
    (s : Scheme) (wires : Nat) (pairs : Bytes) (m n : Nat) :
    side'.audit s wires pairs m n = side.audit s wires pairs m n := by
  rw [audit, audit, active_congr hlayered htables]

theorem Honest.payload_of_audit (law : s.Lawful) (h : side.Honest s wires source target)
    (hdiffer : side.SentinelsDiffer s) {gate m n : Nat} {d : Damage} {table output : Bytes}
    (htable : side.tables.bind (·.get? gate) = some table) (hshows : d.Shows table)
    (hlayered : side'.layered = side.layered)
    (htables : side'.tables = side.tables.map (·.damage gate d))
    (hm : side.layered = true → source.size = m) (hn : side.layered = true → target.size = n)
    (haudit : side'.audit s wires source.bytes m n = .ok output) :
    d.InPayload s.cipherSize ∧ gate < wires ∧ ∃ changed,
      target.DiffersAt wires output gate changed := by
  rcases h with ⟨_, hnone, _⟩ | ⟨tables, hlayer, hsome, _, h⟩
  · rw [hnone] at htable
    cases htable
  · rw [hsome] at htable htables
    rw [hlayer] at hlayered
    unfold Side.audit at haudit
    rw [active_eq_ok_some.2 ⟨hlayered, htables⟩, ← hm hlayer, ← hn hlayer] at haudit
    exact h.payload_of_audit law (hdiffer.at hsome) htable hshows haudit

theorem Honest.exists_audit (law : s.Lawful) (h : side.Honest s wires source target)
    (hdiffer : side.SentinelsDiffer s) {gate m n : Nat} {d : Damage} {table : Bytes}
    (htable : side.tables.bind (·.get? gate) = some table) (hshows : d.Shows table)
    (hpayload : d.InPayload s.cipherSize) (hlayered : side'.layered = side.layered)
    (htables : side'.tables = side.tables.map (·.damage gate d))
    (hm : side.layered = true → source.size = m) (hn : side.layered = true → target.size = n)
    (hsize : side.layered = true → target.size = s.cipherSize) :
    ∃ output, side'.audit s wires source.bytes m n = .ok output := by
  rcases h with ⟨_, hnone, _⟩ | ⟨tables, hlayer, hsome, _, h⟩
  · rw [hnone] at htable
    cases htable
  · rw [hsome] at htable htables
    rw [hlayer] at hlayered
    unfold Side.audit
    rw [active_eq_ok_some.2 ⟨hlayered, htables⟩, ← hm hlayer, ← hn hlayer]
    exact h.exists_audit law (hdiffer.at hsome) (hsize hlayer) htable hshows hpayload

end Side

/-! ## A damaged table of the circuit -/

namespace Layered

section

variable {P G P' G' : Type}

/-- `e` has the circuit, the scheme and the layers of `c`, and all tables but one. -/
structure HasDamagedTablesOf (e : Layered P' G') (c : Layered P G) (place : TablePlace)
    (gate : Nat) (d : Damage) : Prop where
  circuit : e.inner.circuit = c.inner.circuit
  hash : e.inner.hash = c.inner.hash
  scheme : e.scheme = c.scheme
  tables : e.tables = c.tables.damage place gate d
  input : e.input.layered = c.input.layered
  output : e.output.layered = c.output.layered

section

variable {c : Layered P G} {e : Layered P' G'} {keys : KeyMaterial} {offset : Block}
  {zero : Nat → Block} {place : TablePlace} {gate : Nat} {d : Damage} {table : Bytes}

/-- Damage in the output layer is seen there only. -/
theorem Honest.audit_eq_ok_of_output_damage (law : c.scheme.Lawful)
    (h : c.Honest keys offset zero) (hin : c.input.SentinelsDiffer c.scheme)
    (hwires : 0 < c.inner.inputCount) (he : e.HasDamagedTablesOf c .output gate d)
    {outputs : AuditedOutputs} : e.audit keys.inputKeys = .ok outputs ↔
      c.inner.outputPairs offset zero = outputs.inner ∧
      e.output.audit c.scheme c.inner.outputCount (c.inner.outputPairs offset zero)
        FreeXor.keySize c.scheme.cipherSize = .ok outputs.outer := by
  have htables := he.tables
  injection htables with hinner hinput _
  have hsource := h.auditInput law hin
  have hcore := h.auditInner hwires
  rw [audit_eq_ok, he.scheme, FreeXor.inputCount_congr he.circuit,
    FreeXor.outputCount_congr he.circuit, Side.audit_congr he.input hinput, hsource]
  constructor
  · rintro ⟨_, hsame, hinner', hout⟩
    rw [← Except.ok.inj hsame, FreeXor.audit_congr he.circuit he.hash hinner, hcore,
      Except.ok.injEq] at hinner'
    rw [← hinner'] at hout
    exact ⟨hinner', hout⟩
  · rintro ⟨hsame, hout⟩
    rw [hsame] at hcore hout
    exact ⟨_, rfl, (FreeXor.audit_congr he.circuit he.hash hinner _).trans hcore, hout⟩

/-- If an honest garbling with a damaged table still passes the audit for the keys that it
reported, the damage is a changed byte of a payload in the output layer, and the audit does not
give the output keys that were reported. -/
theorem Honest.output_payload_of_audit (law : c.scheme.Lawful) (h : c.Honest keys offset zero)
    (hin : c.input.SentinelsDiffer c.scheme) (hout : c.output.SentinelsDiffer c.scheme)
    (hwires : 2 ≤ c.inner.inputCount) (htable : c.tables.get? place gate = some table)
    (hshows : d.Shows table) (he : e.HasDamagedTablesOf c place gate d) {outputs : AuditedOutputs}
    (haudit : e.audit keys.inputKeys = .ok outputs) :
    place = .output ∧ d.InPayload c.scheme.cipherSize ∧ outputs.outer ≠ keys.outputKeys := by
  have htables := he.tables
  cases place with
  | inner =>
    injection htables with hinner hinput _
    obtain ⟨innerPairs, hsource, hcore, _⟩ := audit_eq_ok.1 haudit
    rw [he.scheme, FreeXor.inputCount_congr he.circuit, Side.audit_congr he.input hinput,
      h.auditInput law hin, Except.ok.injEq] at hsource
    subst hsource
    obtain ⟨_, honest⟩ := h.inner
    have hpairs : e.inner.inputPairs offset zero = c.inner.inputPairs offset zero := by
      rw [FreeXor.inputPairs, FreeXor.inputPairs, FreeXor.inputCount_congr he.circuit]
    have hinputs : 0 < e.inner.inputCount := by
      rw [FreeXor.inputCount_congr he.circuit]
      omega
    rw [← hpairs] at hcore
    exact absurd hcore
      (honest.not_audit_of_damage he.circuit he.hash hinner htable hshows hinputs _)
  | input =>
    injection htables with hinner hinput _
    obtain ⟨innerPairs, hsource, hcore, _⟩ := audit_eq_ok.1 haudit
    rw [he.scheme, FreeXor.inputCount_congr he.circuit] at hsource
    obtain ⟨_, hgate, changed, hkeys⟩ := h.input.payload_of_audit law hin htable hshows he.input
      hinput inputKeySize_of_layered (fun _ => rfl) hsource
    rw [FreeXor.audit_congr he.circuit he.hash hinner] at hcore
    exact absurd hcore (FreeXor.not_audit_of_changed_key hwires hgate hkeys _)
  | output =>
    injection htables with _ _ houtput
    obtain ⟨_, htarget⟩ := (h.audit_eq_ok_of_output_damage law hin (by omega) he).1 haudit
    obtain ⟨hpayload, hgate, changed, hkeys⟩ := h.output.payload_of_audit law hout htable hshows
      he.output houtput (fun _ => rfl) outputKeySize_of_layered htarget
    refine ⟨rfl, hpayload, fun hsame => (hkeys gate hgate changed).1 ?_ ⟨rfl, rfl⟩⟩
    rw [hsame]

/-- A changed byte of a payload in the output layer does pass the audit of the tables. -/
theorem Honest.exists_audit_of_output_payload (law : c.scheme.Lawful)
    (h : c.Honest keys offset zero) (hin : c.input.SentinelsDiffer c.scheme)
    (hout : c.output.SentinelsDiffer c.scheme) (hwires : 0 < c.inner.inputCount)
    (htable : c.tables.get? .output gate = some table) (hshows : d.Shows table)
    (hpayload : d.InPayload c.scheme.cipherSize) (he : e.HasDamagedTablesOf c .output gate d) :
    ∃ outer, e.audit keys.inputKeys =
      .ok { inner := c.inner.outputPairs offset zero, outer } := by
  have htables := he.tables
  injection htables with _ _ houtput
  obtain ⟨outer, htarget⟩ := h.output.exists_audit law hout htable hshows hpayload he.output houtput
    (fun _ => rfl) outputKeySize_of_layered outputKeySize_of_layered
  exact ⟨outer, (h.audit_eq_ok_of_output_damage law hin hwires he).2 ⟨rfl, htarget⟩⟩

end

/-! ## Taking over damaged tables -/

theorem Accepts.damage {c : Layered P G} {tables : LayeredTables} (h : c.Accepts tables)
    (place : TablePlace) (gate : Nat) (d : Damage) : c.Accepts (tables.damage place gate d) := by
  have hmap : ∀ {received : Option Tables} {wires : Nat},
      (∀ t ∈ received, t.size = wires ∧ wires ≤ 0x100000000) →
        ∀ t ∈ received.map (·.damage gate d), t.size = wires ∧ wires ≤ 0x100000000 := by
    intro received wires hall t ht
    obtain ⟨t', ht', rfl⟩ := Option.map_eq_some_iff.1 ht
    rw [Tables.size_damage]
    exact hall t' ht'
  cases place with
  | inner => exact ⟨by rw [← h.inner]; exact Tables.size_damage _ _ _, h.input, h.output⟩
  | input => exact ⟨h.inner, hmap h.input, h.output⟩
  | output => exact ⟨h.inner, h.input, hmap h.output⟩

/-- Any instance over the same circuit takes over the damaged tables. -/
theorem Honest.receive_damaged {c : Layered P G} {keys : KeyMaterial} {offset : Block}
    {zero : Nat → Block} (h : c.Honest keys offset zero) {e : Layered P' G'}
    (hcircuit : e.inner.circuit = c.inner.circuit) (hhash : e.inner.hash = c.inner.hash)
    (hscheme : e.scheme = c.scheme) (place : TablePlace) (gate : Nat) (d : Damage) :
    let tables := c.tables.damage place gate d
    e.setTables tables = (.ok (), e.receive tables) ∧
      (e.receive tables).HasDamagedTablesOf c place gate d := by
  have hinput : (c.tables.damage place gate d).input.isSome = c.input.layered := by
    rw [← h.input.isSome_tables]
    cases place with
    | inner | output => rfl
    | input => exact Option.isSome_map
  have houtput : (c.tables.damage place gate d).output.isSome = c.output.layered := by
    rw [← h.output.isSome_tables]
    cases place with
    | inner | input => rfl
    | output => exact Option.isSome_map
  refine ⟨setTables_eq_ok.2 ⟨(h.accepts hcircuit).damage place gate d, rfl⟩, hcircuit, hhash,
    hscheme, tables_receive _ _, ?_, ?_⟩
  · exact (Side.receive_layered _ _).trans hinput
  · exact (Side.receive_layered _ _).trans houtput

end

section

variable {P G P' G' : Type} [Generator P] [Generator G]

/-- Garbling makes tables for the output side only if keys are pinned there, and they stay
pinned when damaged tables are taken over. -/
theorem Garbles.output_pinned {c c' : Layered P G} {keys : KeyMaterial} (h : c.Garbles keys c')
    {gate : Nat} {table : Bytes} (htable : c'.tables.get? .output gate = some table) (d : Damage) :
    ∃ pinned ∈ c'.output.pinned,
      pinned ∈ (c'.receive (c'.tables.damage .output gate d)).output.pinned := by
  obtain ⟨tables, htables, _⟩ := Option.bind_eq_some_iff.1 htable
  have houtput : c'.output.tables = some tables := htables
  cases hpinned : c'.output.pinned with
  | none =>
    rw [tables_eq_none_of_pinned h.isSome_tables.2 hpinned] at houtput
    cases houtput
  | some pinned =>
    refine ⟨pinned, rfl, ?_⟩
    simp only [receive, LayeredTables.damage, Layered.tables, houtput, Option.map_some,
      Side.receive, Option.mem_def]
    exact hpinned

/-- Damage to one table of an honest garbling that passes the audit is always noticed, whether
a byte is changed, the table is gone or it has another length. The garbler's own instance
refuses the damaged tables, and so does a new instance that is told the reported output keys.
Without these keys, a new instance misses a changed payload of the output layer, and nothing
else. -/
theorem damaged_tables_are_refused {circuit : Circuit} {scheme : Scheme}
    (hscheme : scheme.Shipped) {start c c' : Layered P G} (hstart : start.IsNew circuit scheme)
    {inputKeys outputKeys : Option Bytes} (hprepared : start.Prepared inputKeys outputKeys c)
    {keys : KeyMaterial} (hgarbles : c.Garbles keys c') (hwires : 2 ≤ circuit.inputCount)
    (hverify : c'.verify keys.inputKeys = true) {receiver : Layered P' G'}
    (hreceiver : receiver.IsNew circuit scheme) {place : TablePlace} {gate : Nat} {d : Damage}
    {table : Bytes} (htable : c'.tables.get? place gate = some table) (hshows : d.Shows table) :
    (∃ own, c'.setTables (c'.tables.damage place gate d) = (.ok (), own) ∧
      own.verify keys.inputKeys = false ∧
      own.verifyWithOutputs keys.inputKeys keys.outputKeys = false) ∧
    ∃ fresh, receiver.setTables (c'.tables.damage place gate d) = (.ok (), fresh) ∧
      (fresh.setTranslation keys.translation).verifyWithOutputs keys.inputKeys keys.outputKeys =
        false ∧
      ((fresh.setTranslation keys.translation).verify keys.inputKeys = true ↔
        place = .output ∧ d.InPayload scheme.cipherSize) := by
  obtain ⟨hcircuit, hhash, hsch, _, _, offset, zero, honest⟩ := hprepared.honest hstart hgarbles
  obtain ⟨hcircuit', hhash', hsch', _, hnew⟩ := hreceiver.eq
  have law : c'.scheme.Lawful := hsch ▸ hscheme.lawful
  have hinputs : 2 ≤ c'.inner.inputCount := by
    rw [FreeXor.inputCount, hcircuit]
    exact hwires
  rw [← hsch]
  obtain ⟨outputs, haudit, _, htranslation⟩ := verify_eq_true.1 hverify
  obtain ⟨hin, hout⟩ := honest.sentinelsDiffer_of_audit haudit
  rw [honest.audit law hin hout (by omega), Except.ok.injEq] at haudit
  subst haudit
  -- where the audit passes all the same, it gives other keys than the reported ones
  have hmissed : ∀ {P' G' : Type} {e : Layered P' G'}, e.HasDamagedTablesOf c' place gate d →
      ∀ {outputs}, e.audit keys.inputKeys = .ok outputs →
        place = .output ∧ d.InPayload c'.scheme.cipherSize ∧ outputs.outer ≠ keys.outputKeys :=
    fun he _ => honest.output_payload_of_audit law hin hout hinputs htable hshows he
  have hrefused : ∀ {P' G' : Type} {e : Layered P' G'}, e.HasDamagedTablesOf c' place gate d →
      e.verifyWithOutputs keys.inputKeys keys.outputKeys = false := by
    intro P' G' e he
    refine Bool.eq_false_iff.2 fun haccepts => ?_
    obtain ⟨_, haudit, hsame, _⟩ := verifyWithOutputs_eq_true.1 haccepts
    exact (hmissed he haudit).2.2 hsame
  constructor
  · obtain ⟨hset, hown⟩ := honest.receive_damaged (e := c') rfl rfl rfl place gate d
    refine ⟨_, hset, Bool.eq_false_iff.2 fun haccepts => ?_, hrefused hown⟩
    obtain ⟨_, haudit, hpinned, _⟩ := verify_eq_true.1 haccepts
    obtain ⟨rfl, _, hne⟩ := hmissed hown haudit
    -- the keys that were pinned for the output side are the reported ones
    obtain ⟨pinned, hsome, hkept⟩ := hgarbles.output_pinned htable d
    exact hne ((hpinned pinned hkept).trans (honest.outputPinned pinned hsome).symm)
  · obtain ⟨hset, hfresh⟩ := honest.receive_damaged (e := receiver) (hcircuit'.trans hcircuit.symm)
      (hhash'.trans hhash.symm) (hsch'.trans hsch.symm) place gate d
    have hgiven : ((receiver.receive _).setTranslation keys.translation).HasDamagedTablesOf c' place
        gate d :=
      ⟨hfresh.circuit, hfresh.hash, hfresh.scheme, hfresh.tables, hfresh.input, hfresh.output⟩
    refine ⟨_, hset, hrefused hgiven, ?_⟩
    constructor
    · intro haccepts
      obtain ⟨_, haudit, _⟩ := verify_eq_true.1 haccepts
      obtain ⟨hplace, hpayload, _⟩ := hmissed hgiven haudit
      exact ⟨hplace, hpayload⟩
    · rintro ⟨rfl, hpayload⟩
      obtain ⟨outer, haudit⟩ := honest.exists_audit_of_output_payload law hin hout (by omega) htable
        hshows hpayload hgiven
      -- a new instance has no pinned keys that the audited ones could differ from
      have hpins := Side.receive_new_pinned (c'.tables.damage .output gate d).output
      rw [← hnew] at hpins
      refine verify_eq_true.2 ⟨_, haudit, fun pinned hpinned => ?_, ?_⟩
      · change (receiver.output.receive _).pinned = some pinned at hpinned
        rw [hpins] at hpinned
        cases hpinned
      · exact (FreeXor.verifyTranslation_congr hgiven.circuit honest.translation _).trans
          htranslation

end

/-! ## A conjunction with pinned keys -/

/-- The conjunction of two bits, without tables yet. -/
def newConjunction : Layered (StreamGenerator .aesCounter) (StreamGenerator .aesCounter) :=
  { inner := FreeXor.conjunction, scheme := .block, generator := {} }

/-- Four keys, with the bytes 0, 1, 2 … -/
def conjunctionKeys : Bytes := (List.range 64).map UInt8.ofNat

/-- The conjunction of two bits, with pinned keys on both sides. -/
def pinnedConjunction : Layered (StreamGenerator .aesCounter) (StreamGenerator .aesCounter) :=
  { newConjunction with
    input := { layered := true, pinned := some conjunctionKeys }
    output := { layered := true, pinned := some negationKeys } }

theorem garble_pinnedConjunction : ∃ keys c' table,
    pinnedConjunction.garble 7 (fun _ => true) = (.ok keys, c') ∧
      c'.input.SentinelsDiffer .block ∧ c'.output.SentinelsDiffer .block ∧
      c'.tables.get? .input 1 = some table ∧ (Damage.mask 3 1).Shows table := by
  have hok : (pinnedConjunction.garble 7 fun _ => true).1.toOption.isSome = true := by
    decide +kernel
  have hin : (pinnedConjunction.garble 7 fun _ => true).2.input.SentinelsDiffer .block := by
    decide +kernel
  have hout : (pinnedConjunction.garble 7 fun _ => true).2.output.SentinelsDiffer .block := by
    decide +kernel
  have htable : ((pinnedConjunction.garble 7 fun _ => true).2.tables.get? .input 1).any
      (3 < ·.length) = true := by
    decide +kernel
  rcases h : pinnedConjunction.garble 7 (fun _ => true) with ⟨e | keys, c'⟩
  · rw [h] at hok
    cases hok
  · rw [h] at hin hout htable
    obtain ⟨table, hsome, hlen⟩ := (Option.any_eq_true _ _).1 htable
    exact ⟨keys, c', table, rfl, hin, hout, hsome, by simpa using hlen, by decide⟩

theorem damaged_conjunction_is_refused : ∃ keys c' table,
    pinnedConjunction.Garbles keys c' ∧ c'.verify keys.inputKeys = true ∧
      c'.tables.get? .input 1 = some table ∧ (Damage.mask 3 1).Shows table ∧
      ∃ own, c'.setTables (c'.tables.damage .input 1 (.mask 3 1)) = (.ok (), own) ∧
        own.verify keys.inputKeys = false ∧
        own.verifyWithOutputs keys.inputKeys keys.outputKeys = false := by
  obtain ⟨keys, c', table, hgarble, hin, hout, htable, hshows⟩ := garble_pinnedConjunction
  have hgarbles : pinnedConjunction.Garbles keys c' := .random 7 _ hgarble
  have hnew : newConjunction.IsNew ⟨[1, 1], [.and 0 1], [2]⟩ .block := ⟨{}, _, {}, rfl, rfl⟩
  have hprepared :
      newConjunction.Prepared (some conjunctionKeys) (some negationKeys) pinnedConjunction :=
    .setOutputKeys (.setInputKeys .new rfl) rfl
  obtain ⟨hcircuit, _, hscheme, _, _, _, _, honest⟩ := hprepared.honest hnew hgarbles
  have hwires : 0 < c'.inner.inputCount := by
    rw [FreeXor.inputCount, hcircuit]
    decide
  rw [← hscheme] at hin hout
  have hverify := honest.verify (hscheme ▸ Scheme.lawful_block) hin hout hwires
  obtain ⟨hown, _⟩ := damaged_tables_are_refused .block hnew hprepared hgarbles (by decide) hverify
    hnew htable hshows
  exact ⟨keys, c', table, hgarbles, hverify, htable, hshows, hown⟩

end Layered

end Garbling
