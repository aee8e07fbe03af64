-- What can happen to a circuit with layers, in any order. Its circuit and
-- its scheme never change, and it counts as garbled if and only if some
-- operation has supplied it with tables. The inner circuit then has some.
import Garbling.Layered.Commitment
import Garbling.Proofs.Outcomes

namespace Garbling.Layered

variable {P G α : Type}

/-! ## What an operation keeps -/

/-- `c'` is the same circuit as `c`, with tables inside if `c` has some. -/
structure Follows (c c' : Layered P G) : Prop where
  circuit : c'.inner.circuit = c.inner.circuit
  hash : c'.inner.hash = c.inner.hash
  scheme : c'.scheme = c.scheme
  inner : c.inner.garbled = true → c'.inner.garbled = true

/-- A success leaves a garbled circuit with tables inside, and after a failure the circuit
counts as garbled only if it did before. -/
structure Supplies (c : Layered P G) (outcome : Except Error α × Layered P G) : Prop where
  follows : c.Follows outcome.2
  ok : ∀ a, outcome.1 = .ok a → outcome.2.garbled = true ∧ outcome.2.inner.garbled = true
  error : ∀ e, outcome.1 = .error e → outcome.2.garbled = c.garbled

theorem Follows.refl (c : Layered P G) : c.Follows c := ⟨rfl, rfl, rfl, id⟩

theorem Follows.trans {c c' c'' : Layered P G} (h : c.Follows c') (h' : c'.Follows c'') :
    c.Follows c'' :=
  ⟨h'.circuit.trans h.circuit, h'.hash.trans h.hash, h'.scheme.trans h.scheme, h'.inner ∘ h.inner⟩

theorem Supplies.after {c c' : Layered P G} {outcome : Except Error α × Layered P G}
    (h : c'.Supplies outcome) (hf : c.Follows c') (hg : c'.garbled = c.garbled) :
    c.Supplies outcome := by
  refine ⟨hf.trans h.follows, h.ok, ?_⟩
  intro e he
  rw [h.error e he, hg]

theorem Supplies.of_error {c c' : Layered P G} {e : Error} (hf : c.Follows c')
    (hg : c'.garbled = c.garbled) : c.Supplies ((.error e, c') : Except Error α × Layered P G) := by
  refine ⟨hf, ?_, fun _ _ => hg⟩
  intro a ha
  cases ha

theorem Supplies.of_ok {c c' : Layered P G} {a : α} (hf : c.Follows c') (hg : c'.garbled = true)
    (hi : c'.inner.garbled = true) : c.Supplies ((.ok a, c') : Except Error α × Layered P G) := by
  refine ⟨hf, fun _ _ => ⟨hg, hi⟩, ?_⟩
  intro e he
  cases he

/-! ## Garbling -/

/-- What garbling does to the inner circuit. -/
structure InnerSupplies (c : FreeXor G) (outcome : Except Error α × FreeXor G) : Prop where
  circuit : outcome.2.circuit = c.circuit
  hash : outcome.2.hash = c.hash
  kept : c.garbled = true → outcome.2.garbled = true
  ok : ∀ a, outcome.1 = .ok a → outcome.2.garbled = true

theorem innerSupplies_garbleWith (c : FreeXor G) (labels : FreeXor.Labels) :
    InnerSupplies c (c.garbleWith labels) := by
  unfold FreeXor.garbleWith
  split
  · refine ⟨rfl, rfl, id, ?_⟩
    intro keys h
    cases h
  · exact ⟨rfl, rfl, fun _ => rfl, fun _ _ => rfl⟩

theorem innerSupplies_garbleSeeded [Generator G] (c : FreeXor G) (seed : Bytes) :
    InnerSupplies c (c.garbleSeeded seed) := by
  unfold FreeXor.garbleSeeded
  split
  · refine ⟨rfl, rfl, id, ?_⟩
    intro keys h
    cases h
  split
  · refine ⟨rfl, rfl, id, ?_⟩
    intro keys h
    cases h
  · rename_i key generator _
    obtain ⟨hcircuit, hhash, hkept, hok⟩ := innerSupplies_garbleWith { c with generator }
      (FreeXor.Labels.draw c.circuit (CounterStream.ofKey (Block.ofBytes key)))
    exact ⟨hcircuit, hhash, hkept, hok⟩

theorem follows_inner {c : Layered P G} {outcome : Except Error α × FreeXor G} (generator : P)
    (h : InnerSupplies c.inner outcome) : c.Follows { c with generator, inner := outcome.2 } :=
  ⟨h.circuit, h.hash, rfl, h.kept⟩

section

variable [Generator P]

theorem supplies_finish {c : Layered P G} (h : c.inner.garbled = true) (keys : KeyMaterial)
    (order : RowOrder P) : c.Supplies (c.finish keys order) := by
  unfold finish
  split
  · exact .of_error ⟨rfl, rfl, rfl, id⟩ rfl
  dsimp only
  split
  · exact .of_error ⟨rfl, rfl, rfl, id⟩ rfl
  · exact .of_ok ⟨rfl, rfl, rfl, id⟩ rfl h

theorem supplies_garble (c : Layered P G) (key : Block) (rows : Nat → Bool) :
    c.Supplies (c.garble key rows) := by
  have hinner := innerSupplies_garbleWith c.inner
    (FreeXor.Labels.draw c.inner.circuit (CounterStream.ofKey key))
  unfold garble FreeXor.garble
  rcases h : c.inner.garbleWith _ with ⟨e | keys, inner⟩
  · rw [h] at hinner
    exact .of_error (follows_inner c.generator hinner) rfl
  · rw [h] at hinner
    have hfinish := supplies_finish (c := { c with inner }) (hinner.ok keys rfl) keys (.random rows)
    exact hfinish.after (follows_inner c.generator hinner) rfl

theorem supplies_garbleSeeded [Generator G] (c : Layered P G) (seed : Bytes) :
    c.Supplies (c.garbleSeeded seed) := by
  unfold garbleSeeded
  split
  · exact .of_error (.refl c) rfl
  split
  · exact .of_error ⟨rfl, rfl, rfl, id⟩ rfl
  rename_i innerSeed rowSeed generator _
  have hinner := innerSupplies_garbleSeeded c.inner innerSeed
  rcases h : c.inner.garbleSeeded innerSeed with ⟨e | keys, inner⟩
  · rw [h] at hinner
    exact .of_error (follows_inner _ hinner) rfl
  · rw [h] at hinner
    dsimp only
    split
    · exact .of_error (follows_inner _ hinner) rfl
    · exact (supplies_finish (hinner.ok keys rfl) keys _).after (follows_inner _ hinner) rfl

end

/-! ## Other operations -/

theorem supplies_setTables (c : Layered P G) (tables : LayeredTables) :
    c.Supplies (c.setTables tables) := by
  unfold setTables
  split
  · exact .of_error (.refl c) rfl
  split
  · exact .of_error (.refl c) rfl
  split
  · exact .of_error (.refl c) rfl
  rename_i inner hinner
  unfold FreeXor.setTables at hinner
  split at hinner
  · cases hinner
    split
    · exact .of_error ⟨rfl, rfl, rfl, fun _ => rfl⟩ rfl
    split
    · exact .of_error ⟨rfl, rfl, rfl, fun _ => rfl⟩ rfl
    · exact .of_ok ⟨rfl, rfl, rfl, fun _ => rfl⟩ rfl rfl
  · cases hinner

/-- Keys are only pinned before garbling, and pinning changes nothing but the side. -/
theorem of_setInputKeys {c c' : Layered P G} {keys : Bytes} (h : c.setInputKeys keys = .ok c') :
    c.garbled = false ∧
      ∃ input, c.input.pin c.inner.inputCount c.scheme.cipherSize keys = .ok input ∧
        c' = { c with input } := by
  unfold setInputKeys at h
  obtain ⟨hg, h⟩ := guard_eq_ok.1 h
  obtain ⟨input, hpin, h⟩ := bind_eq_ok.1 h
  exact ⟨by simpa using hg, input, hpin, (pure_eq_ok.1 h).symm⟩

theorem of_setOutputKeys {c c' : Layered P G} {keys : Bytes} (h : c.setOutputKeys keys = .ok c') :
    c.garbled = false ∧
      ∃ output, c.output.pin c.inner.outputCount c.scheme.cipherSize keys = .ok output ∧
        c' = { c with output } := by
  unfold setOutputKeys at h
  obtain ⟨hg, h⟩ := guard_eq_ok.1 h
  obtain ⟨output, hpin, h⟩ := bind_eq_ok.1 h
  exact ⟨by simpa using hg, output, hpin, (pure_eq_ok.1 h).symm⟩

theorem follows_setInputKeys {c c' : Layered P G} {keys : Bytes}
    (h : c.setInputKeys keys = .ok c') : c.Follows c' ∧ c'.garbled = c.garbled := by
  obtain ⟨_, input, _, rfl⟩ := of_setInputKeys h
  exact ⟨⟨rfl, rfl, rfl, id⟩, rfl⟩

theorem follows_setOutputKeys {c c' : Layered P G} {keys : Bytes}
    (h : c.setOutputKeys keys = .ok c') : c.Follows c' ∧ c'.garbled = c.garbled := by
  obtain ⟨_, output, _, rfl⟩ := of_setOutputKeys h
  exact ⟨⟨rfl, rfl, rfl, id⟩, rfl⟩

/-- What holds of a circuit and of it with pinned keys holds if keys are pinned only where some
are given. -/
theorem of_elim (Holds : Layered P G → Prop) {c c' : Layered P G}
    {pin : Bytes → Except Error (Layered P G)} (h : Holds c)
    (hpin : ∀ keys c', pin keys = .ok c' → Holds c') {keys : Option Bytes}
    (helim : keys.elim (.ok c) pin = .ok c') : Holds c' := by
  cases keys with
  | none =>
    cases helim
    exact h
  | some keys => exact hpin keys c' helim

section

variable [Generator P] [Generator G]

theorem supplies_garblePinned (c : Layered P G) (seed : Bytes)
    (inputKeys outputKeys : Option Bytes) :
    c.Supplies (c.garblePinned seed inputKeys outputKeys) := by
  unfold garblePinned
  split
  · exact .of_error (.refl c) rfl
  rename_i c1 hinput
  obtain ⟨hf1, hg1⟩ := of_elim (fun c' => c.Follows c' ∧ c'.garbled = c.garbled) ⟨.refl c, rfl⟩
    (fun _ _ => follows_setInputKeys) hinput
  split
  · exact .of_error hf1 hg1
  rename_i c2 houtput
  obtain ⟨hf2, hg2⟩ := of_elim (fun c' => c1.Follows c' ∧ c'.garbled = c1.garbled) ⟨.refl c1, rfl⟩
    (fun _ _ => follows_setOutputKeys) houtput
  exact (supplies_garbleSeeded c2 seed).after (hf1.trans hf2) (hg2.trans hg1)

theorem supplies_verifyHashed {c : Layered P G} (h : c.garbled = true → c.inner.garbled = true)
    (seed : Bytes) (inputKeys outputKeys : Option Bytes) (d : Digest) (digest : Bytes) :
    c.Supplies (c.verifyHashed seed inputKeys outputKeys d digest) := by
  unfold verifyHashed
  split
  · rename_i hg
    exact .of_ok (.refl c) hg (h hg)
  · have hgarble := supplies_garblePinned c seed inputKeys outputKeys
    split
    · rename_i e c' hfail
      rw [hfail] at hgarble
      exact .of_error hgarble.follows (hgarble.error e rfl)
    · rename_i keys c' hok
      rw [hok] at hgarble
      obtain ⟨hg, hi⟩ := hgarble.ok keys rfl
      exact .of_ok hgarble.follows hg hi

end

/-! ## Operations in any order -/

/-- What changes a circuit with layers. -/
inductive Operation where
  | setInputKeys (keys : Bytes)
  | setOutputKeys (keys : Bytes)
  | garble (key : Block) (rows : Nat → Bool)
  | garbleSeeded (seed : Bytes)
  | setTables (tables : LayeredTables)
  | setTranslation (translation : Bytes)
  /-- A check against a digest garbles from the seed if there are no tables yet. -/
  | verifyHashed (seed : Bytes) (inputKeys outputKeys : Option Bytes) (d : Digest) (digest : Bytes)

/-- The operation makes or receives tables if it succeeds. -/
def Operation.suppliesTables : Operation → Bool
  | garble _ _ | garbleSeeded _ | setTables _ | verifyHashed _ _ _ _ _ => true
  | setInputKeys _ | setOutputKeys _ | setTranslation _ => false

/-- The circuit with pinned keys, or as it was if they were refused. -/
def orUnchanged (c : Layered P G) : Except Error (Layered P G) → Except Error Unit × Layered P G
  | .ok c => (.ok (), c)
  | .error e => (.error e, c)

/-- An outcome of which only the success counts. -/
def succeeded (outcome : Except Error α × Layered P G) : Except Error Unit × Layered P G :=
  (outcome.1.map fun _ => (), outcome.2)

section

variable [Generator P] [Generator G]

/-- Whether an operation succeeds, and the circuit after it. -/
def perform (c : Layered P G) : Operation → Except Error Unit × Layered P G
  | .setInputKeys keys => c.orUnchanged (c.setInputKeys keys)
  | .setOutputKeys keys => c.orUnchanged (c.setOutputKeys keys)
  | .garble key rows => succeeded (c.garble key rows)
  | .garbleSeeded seed => succeeded (c.garbleSeeded seed)
  | .setTables tables => c.setTables tables
  | .setTranslation translation => (.ok (), c.setTranslation translation)
  | .verifyHashed seed inputKeys outputKeys d digest =>
    succeeded (c.verifyHashed seed inputKeys outputKeys d digest)

/-- The circuit after some operations, of which any may fail. -/
def run (c : Layered P G) (ops : List Operation) : Layered P G :=
  ops.foldl (fun c op => (c.perform op).2) c

/-- One of the operations has made or received tables. -/
def Supplied (c : Layered P G) (ops : List Operation) : Prop :=
  ∃ before op after, ops = before ++ op :: after ∧ op.suppliesTables = true ∧
    ((c.run before).perform op).1 = .ok ()

end

theorem Supplies.succeeded {c : Layered P G} {outcome : Except Error α × Layered P G}
    (h : c.Supplies outcome) : c.Supplies (succeeded outcome) := by
  obtain ⟨e | a, c'⟩ := outcome
  · exact .of_error h.follows (h.error e rfl)
  · obtain ⟨hg, hi⟩ := h.ok a rfl
    exact .of_ok h.follows hg hi

/-- What holds of a circuit and of it with pinned keys holds whether they are refused or not. -/
theorem of_orUnchanged (Holds : Layered P G → Prop) {c : Layered P G}
    {result : Except Error (Layered P G)} (h : Holds c)
    (hresult : ∀ c', result = .ok c' → Holds c') : Holds (c.orUnchanged result).2 := by
  cases result with
  | ok c' => exact hresult c' rfl
  | error e => exact h

section

variable [Generator P] [Generator G]

theorem supplies_perform {c : Layered P G} (h : c.garbled = true → c.inner.garbled = true)
    {op : Operation} (hop : op.suppliesTables = true) : c.Supplies (c.perform op) := by
  cases op with
  | setInputKeys _ | setOutputKeys _ | setTranslation _ => cases hop
  | garble key rows => exact (supplies_garble c key rows).succeeded
  | garbleSeeded seed => exact (supplies_garbleSeeded c seed).succeeded
  | setTables tables => exact supplies_setTables c tables
  | verifyHashed seed inputKeys outputKeys d digest =>
    exact (supplies_verifyHashed h seed inputKeys outputKeys d digest).succeeded

theorem follows_perform {c : Layered P G} {op : Operation} (hop : op.suppliesTables = false) :
    c.Follows (c.perform op).2 ∧ (c.perform op).2.garbled = c.garbled := by
  have hpin : ∀ {result : Except Error (Layered P G)},
      (∀ c', result = .ok c' → c.Follows c' ∧ c'.garbled = c.garbled) →
        c.Follows (c.orUnchanged result).2 ∧ (c.orUnchanged result).2.garbled = c.garbled :=
    of_orUnchanged (fun c' => c.Follows c' ∧ c'.garbled = c.garbled) ⟨.refl c, rfl⟩
  cases op with
  | setInputKeys keys => exact hpin fun _ => follows_setInputKeys
  | setOutputKeys keys => exact hpin fun _ => follows_setOutputKeys
  | setTranslation translation => exact ⟨⟨rfl, rfl, rfl, id⟩, rfl⟩
  | garble _ _ | garbleSeeded _ | setTables _ | verifyHashed _ _ _ _ _ => cases hop

/-- An operation keeps the circuit, and afterwards the circuit is garbled if it was before or
if it has been supplied with tables. It then has tables inside. -/
theorem perform_keeps {c : Layered P G} (h : c.garbled = true → c.inner.garbled = true)
    (op : Operation) : c.Follows (c.perform op).2 ∧
      ((c.perform op).2.garbled = true → (c.perform op).2.inner.garbled = true) ∧
      ((c.perform op).2.garbled = true ↔
        c.garbled = true ∨ op.suppliesTables = true ∧ (c.perform op).1 = .ok ()) := by
  cases hop : op.suppliesTables with
  | true =>
    have hs := supplies_perform h hop
    refine ⟨hs.follows, ?_, ?_⟩
    · cases hresult : (c.perform op).1 with
      | ok u => exact fun _ => (hs.ok u hresult).2
      | error e =>
        intro hg
        rw [hs.error e hresult] at hg
        exact hs.follows.inner (h hg)
    · cases hresult : (c.perform op).1 with
      | ok u => simp [(hs.ok u hresult).1]
      | error e => simp [hs.error e hresult]
  | false =>
    obtain ⟨hf, hg⟩ := follows_perform (c := c) hop
    refine ⟨hf, ?_, ?_⟩
    · intro hgarbled
      rw [hg] at hgarbled
      exact hf.inner (h hgarbled)
    · simp [hg]

theorem supplied_nil (c : Layered P G) : ¬ c.Supplied [] := by
  rintro ⟨before, op, after, h, _⟩
  cases before <;> cases h

theorem supplied_cons {c : Layered P G} {op : Operation} {ops : List Operation} :
    c.Supplied (op :: ops) ↔ (op.suppliesTables = true ∧ (c.perform op).1 = .ok ()) ∨
      (c.perform op).2.Supplied ops := by
  constructor
  · rintro ⟨before, op', after, h, hop, hok⟩
    cases before with
    | nil =>
      cases h
      exact .inl ⟨hop, hok⟩
    | cons first before =>
      cases h
      exact .inr ⟨before, op', after, rfl, hop, hok⟩
  · rintro (⟨hop, hok⟩ | ⟨before, op', after, rfl, hop, hok⟩)
    · exact ⟨[], op, ops, rfl, hop, hok⟩
    · exact ⟨op :: before, op', after, rfl, hop, hok⟩

/-- Whatever happens to a circuit, it is garbled if and only if it has been supplied with
tables, and then it has some inside. -/
theorem run_keeps {c : Layered P G} (h : c.garbled = true → c.inner.garbled = true)
    (ops : List Operation) : c.Follows (c.run ops) ∧
      ((c.run ops).garbled = true → (c.run ops).inner.garbled = true) ∧
      ((c.run ops).garbled = true ↔ c.garbled = true ∨ c.Supplied ops) := by
  induction ops generalizing c with
  | nil => exact ⟨.refl c, h, by simp [run, supplied_nil]⟩
  | cons op ops ih =>
    obtain ⟨hf, hi, hg⟩ := perform_keeps h op
    obtain ⟨hf', hi', hg'⟩ := ih hi
    refine ⟨hf.trans hf', hi', ?_⟩
    rw [supplied_cons, ← or_assoc, ← hg]
    exact hg'

end

end Garbling.Layered
