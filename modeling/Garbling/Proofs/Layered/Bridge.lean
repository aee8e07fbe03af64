-- Layers lead from keys to keys. Tables lead from one array of pairs to
-- another if evaluation turns every choice from the first into the same
-- choice from the second. An audit that accepts tables gives an array
-- that they lead to, and a side without a layer leads keys to themselves.
import Garbling.Layered.Audit
import Garbling.Layered.Evaluation
import Garbling.Proofs.IdentityRows
import Garbling.Proofs.KeyArray.Choice

namespace Garbling

namespace Layer

/-! ## Layers -/

/-- One key for each wire. -/
def Keys.choose (keys : Keys) (wires : Nat) (bit : Nat → Bool) : Keys :=
  ⟨KeyArray.choose keys.size wires keys.bytes bit, keys.size⟩

/-- The tables lead the keys of `source` to those of `target`. -/
structure Leads (s : Scheme) (tables : Tables) (wires : Nat) (source target : Keys) : Prop where
  sourceLength : source.bytes.length = 2 * wires * source.size
  targetLength : target.bytes.length = 2 * wires * target.size
  compute : ∀ bit, compute s tables wires (source.choose wires bit) target.size =
    .ok (target.choose wires bit).bytes

theorem Keys.pairAt?_eq_some {keys : Keys} {wires wire : Nat}
    (h : keys.bytes.length = 2 * wires * keys.size) (hw : wire < wires) :
    keys.pairAt? wire = some (KeyArray.keyFor keys.size keys.bytes wire false,
      KeyArray.keyFor keys.size keys.bytes wire true) := by
  rw [pairAt?, KeyArray.bitKeyAt?_eq_some h hw, KeyArray.bitKeyAt?_eq_some h hw]
  rfl

/-- The gate at a position opens one row with the key for 0 and the other with the key for 1,
and finds the two keys of the wire in them. -/
def OpensAt (s : Scheme) (tables : Tables) (source target : Keys) (position : Nat) : Prop :=
  ∃ table second, tables.get? position = some table ∧ table.length = IdentityGate.tableSize s ∧
    ∀ bit, IdentityGate.Opens s (gateNumber position) table target.size
      (KeyArray.keyFor source.size source.bytes position bit) (second ^^ bit)
      (KeyArray.keyFor target.size target.bytes position bit)

/-- If each gate leads the key for one bit of its wire to the key for another, the layer leads
one choice of keys to another. -/
theorem compute_choose {s : Scheme} {tables : Tables} {wires : Nat} {source target : Keys}
    (hs : source.bytes.length = 2 * wires * source.size) {bit bit' : Nat → Bool}
    (h : ∀ position < wires, ∃ table, tables.get? position = some table ∧
      IdentityGate.compute s (gateNumber position) table
        (KeyArray.keyFor source.size source.bytes position (bit position)) target.size =
        .ok (KeyArray.keyFor target.size target.bytes position (bit' position))) :
    compute s tables wires (source.choose wires bit) target.size =
      .ok (target.choose wires bit').bytes := by
  have hgates : (List.range wires).mapM
      (computeAt s tables (source.choose wires bit) target.size) =
      .ok ((List.range wires).map fun w =>
        KeyArray.keyFor target.size target.bytes w (bit' w)) := by
    refine mapM_ok fun w hmem => ?_
    have hw : w < wires := List.mem_range.1 hmem
    obtain ⟨table, htable, hcompute⟩ := h w hw
    have hkey : (source.choose wires bit).keyAt? w =
        some (KeyArray.keyFor source.size source.bytes w (bit w)) := KeyArray.keyAt?_choose hs hw
    unfold computeAt
    simp only [htable, hkey, inRange, ok_bind]
    exact hcompute
  unfold compute
  rw [hgates, ok_bind, ← List.flatMap_def]
  rfl

/-- A layer leads keys on if each of its gates does. -/
theorem leads_of_opensAt {s : Scheme} {tables : Tables} {wires : Nat} {source target : Keys}
    (hs : source.bytes.length = 2 * wires * source.size)
    (ht : target.bytes.length = 2 * wires * target.size)
    (h : ∀ position < wires, OpensAt s tables source target position) :
    Leads s tables wires source target := by
  refine ⟨hs, ht, ?_⟩
  intro bit
  refine compute_choose hs fun w hw => ?_
  obtain ⟨table, second, htable, hlen, hopens⟩ := h w hw
  exact ⟨table, htable, IdentityGate.compute_of_opens hlen (hopens (bit w))⟩

theorem auditAt_eq_ok {s : Scheme} {tables : Tables} {keys : Keys} {outputSize position : Nat}
    {output : Bytes} (h : auditAt s tables keys outputSize position = .ok output) :
    ∃ table inputs outputs, tables.get? position = some table ∧
      keys.pairAt? position = some inputs ∧
      IdentityGate.audit s (gateNumber position) table inputs outputSize = .ok outputs ∧
      output = outputs.1 ++ outputs.2 := by
  unfold auditAt at h
  split at h
  · cases h
  · rename_i table htable
    obtain ⟨inputs, hinputs, h⟩ := bind_eq_ok.1 h
    obtain ⟨outputs, haudit, h⟩ := bind_eq_ok.1 h
    rw [auditRange_eq_ok] at hinputs
    exact ⟨table, inputs, outputs, htable, hinputs, haudit, (pure_eq_ok.1 h).symm⟩

/-- The audit of a layer only accepts tables of which both keys open their rows at each gate,
and it gives the keys in these rows. -/
theorem opensAt_of_audit {s : Scheme} {tables : Tables} {wires outputSize : Nat} {source : Keys}
    {output : Bytes} (h : audit s tables wires source outputSize = .ok output) :
    tables.size = wires ∧ source.bytes.length = 2 * wires * source.size ∧
      output.length = 2 * wires * outputSize ∧
      ∀ position < wires, OpensAt s tables source ⟨output, outputSize⟩ position := by
  unfold audit at h
  obtain ⟨hslots, h⟩ := guard_eq_ok.1 h
  obtain ⟨hlen, h⟩ := guard_eq_ok.1 h
  obtain ⟨pieces, hpieces, h⟩ := bind_eq_ok.1 h
  have houtput : pieces.flatten = output := pure_eq_ok.1 h
  have hsource := Decidable.not_not.1 hlen
  obtain ⟨hcount, hgates⟩ := mapM_range_eq_ok.1 hpieces
  -- both keys of a wire, as the audit of its gate gives them
  let key : Nat → Bool → Bytes := fun w bit =>
    if bit then (pieces.getD w []).drop outputSize else (pieces.getD w []).take outputSize
  have hopens : ∀ w < wires, ∃ table second, tables.get? w = some table ∧
      table.length = IdentityGate.tableSize s ∧ ∀ bit,
        IdentityGate.Opens s (gateNumber w) table outputSize
          (KeyArray.keyFor source.size source.bytes w bit) (second ^^ bit) (key w bit) := by
    intro w hw
    have hw' : w < pieces.length := by omega
    obtain ⟨table, inputs, outputs, htable, hinputs, haudit, hpiece⟩ := auditAt_eq_ok (hgates w hw')
    obtain ⟨hsize, second, h0, h1⟩ := IdentityGate.audit_eq_ok.1 haudit
    rw [Keys.pairAt?_eq_some hsource hw, Option.some.injEq] at hinputs
    subst hinputs
    have hget : pieces.getD w [] = outputs.1 ++ outputs.2 := by
      rw [List.getD_eq_getElem?_getD, List.getElem?_eq_getElem hw', Option.getD_some, hpiece]
    have hkey0 : key w false = outputs.1 := by
      simp only [key, hget, Bool.false_eq_true, if_false]
      exact List.take_left' h0.length
    have hkey1 : key w true = outputs.2 := by
      simp only [key, hget, if_true]
      exact List.drop_left' h0.length
    refine ⟨table, second, htable, hsize, ?_⟩
    intro bit
    cases bit with
    | false => rwa [hkey0, Bool.xor_false]
    | true => rwa [hkey1, Bool.xor_true]
  have hkeys : ∀ w < wires, ∀ bit, (key w bit).length = outputSize := by
    intro w hw bit
    obtain ⟨_, _, _, _, h⟩ := hopens w hw
    exact (h bit).length
  have hpairs : output = (List.range wires).flatMap fun w => key w false ++ key w true := by
    rw [← houtput, List.flatMap_def]
    congr 1
    apply List.ext_getElem
    · rw [hcount, List.length_map, List.length_range]
    · intro i h1 h2
      simp [key, h1]
  have htarget : output.length = 2 * wires * outputSize := by
    rw [hpairs]
    exact KeyArray.length_flatMap_pairs hkeys
  refine ⟨Decidable.not_not.1 hslots, hsource, htarget, fun w hw => ?_⟩
  obtain ⟨table, second, htable, hsize, h⟩ := hopens w hw
  refine ⟨table, second, htable, hsize, ?_⟩
  intro bit
  have hkey : KeyArray.keyFor outputSize output w bit = key w bit := by
    rw [hpairs]
    exact KeyArray.keyFor_flatMap key hkeys hw
  rw [hkey]
  exact h bit

/-- Tables that pass the audit lead the audited keys to those that the audit gives. -/
theorem leads_of_audit {s : Scheme} {tables : Tables} {wires outputSize : Nat} {source : Keys}
    {output : Bytes} (h : audit s tables wires source outputSize = .ok output) :
    Leads s tables wires source ⟨output, outputSize⟩ := by
  obtain ⟨_, hsource, htarget, hopens⟩ := opensAt_of_audit h
  exact leads_of_opensAt hsource htarget hopens

end Layer

/-! ## Sides -/

namespace Side

theorem active_eq_ok_none {side : Side} : side.active = .ok none ↔ side.layered = false := by
  unfold active
  cases side.layered with
  | false => simp
  | true => cases side.tables <;> simp

theorem active_eq_ok_some {side : Side} {tables : Tables} :
    side.active = .ok (some tables) ↔ side.layered = true ∧ side.tables = some tables := by
  unfold active
  cases side.layered with
  | false => simp
  | true => cases side.tables <;> simp

/-- The side leads the keys of `source` to those of `target`, with its layer if it has one. -/
def Leads (s : Scheme) (side : Side) (wires : Nat) (source target : Layer.Keys) : Prop :=
  (side.active = .ok none ∧ source = target) ∨
    ∃ tables, side.active = .ok (some tables) ∧ Layer.Leads s tables wires source target

/-- Evaluation on a side, from keys of the size `m` to keys of the size `n`. -/
def compute (s : Scheme) (side : Side) (wires : Nat) (keys : Bytes) (m n : Nat) :
    Except Error Bytes :=
  match side.active with
  | .error e => .error e
  | .ok none => .ok keys
  | .ok (some tables) => Layer.compute s tables wires ⟨keys, m⟩ n

theorem active_bind_compute {α : Type} (s : Scheme) (side : Side) (wires : Nat) (keys : Bytes)
    (m n : Nat) (f : Bytes → Except Error α) :
    (side.active >>= fun
      | none => pure keys >>= f
      | some tables => Layer.compute s tables wires ⟨keys, m⟩ n >>= f) =
      side.compute s wires keys m n >>= f := by
  unfold compute
  rcases side.active with e | _ | tables <;> rfl

/-- The audit of a side, from keys of the size `m` to keys of the size `n`. -/
def audit (s : Scheme) (side : Side) (wires : Nat) (pairs : Bytes) (m n : Nat) :
    Except Rejection Bytes :=
  match side.active with
  | .error _ => .error .notGarbled
  | .ok none => .ok pairs
  | .ok (some tables) => Layer.audit s tables wires ⟨pairs, m⟩ n

theorem active_bind_audit {α : Type} (s : Scheme) (side : Side) (wires : Nat) (pairs : Bytes)
    (m n : Nat) (f : Bytes → Except Rejection α) :
    (Layered.auditSide side >>= fun
      | none => pure pairs >>= f
      | some tables => Layer.audit s tables wires ⟨pairs, m⟩ n >>= f) =
      side.audit s wires pairs m n >>= f := by
  unfold audit Layered.auditSide
  rcases side.active with e | _ | tables <;> rfl

section

variable {s : Scheme} {side : Side} {wires : Nat} {source target : Layer.Keys}

theorem Leads.sourceLength (h : side.Leads s wires source target)
    (ht : target.bytes.length = 2 * wires * target.size) :
    source.bytes.length = 2 * wires * source.size := by
  rcases h with ⟨_, rfl⟩ | ⟨_, _, h⟩
  · exact ht
  · exact h.sourceLength

theorem Leads.targetLength (h : side.Leads s wires source target)
    (hs : source.bytes.length = 2 * wires * source.size) :
    target.bytes.length = 2 * wires * target.size := by
  rcases h with ⟨_, rfl⟩ | ⟨_, _, h⟩
  · exact hs
  · exact h.targetLength

theorem Leads.compute {m n : Nat} (h : side.Leads s wires source target)
    (hm : side.layered = true → source.size = m) (hn : side.layered = true → target.size = n)
    (bit : Nat → Bool) :
    side.compute s wires (source.choose wires bit).bytes m n =
      .ok (target.choose wires bit).bytes := by
  unfold Side.compute
  rcases h with ⟨hactive, rfl⟩ | ⟨tables, hactive, h⟩
  · rw [hactive]
  · have hlayered := (active_eq_ok_some.1 hactive).1
    rw [hactive, ← hm hlayered, ← hn hlayered]
    exact h.compute bit

/-- A side leads the audited keys to those that its audit gives. -/
theorem leads_of_audit {m n : Nat} (h : side.audit s wires source.bytes m n = .ok target.bytes)
    (hm : side.layered = true → source.size = m) (hn : side.layered = true → target.size = n)
    (hsame : side.layered = false → source.size = target.size) :
    side.Leads s wires source target := by
  unfold audit at h
  split at h
  · cases h
  · rename_i hactive
    left
    refine ⟨hactive, ?_⟩
    have hsize := hsame (active_eq_ok_none.1 hactive)
    have hbytes := Except.ok.inj h
    obtain ⟨source, m⟩ := source
    obtain ⟨target, n⟩ := target
    simp_all
  · rename_i tables hactive
    right
    have hlayered := (active_eq_ok_some.1 hactive).1
    refine ⟨tables, hactive, ?_⟩
    rw [← hm hlayered, ← hn hlayered] at h
    exact Layer.leads_of_audit h

end

end Side

end Garbling
