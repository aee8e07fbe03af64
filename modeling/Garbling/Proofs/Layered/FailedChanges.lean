-- What a failure leaves. Keys and tables are checked before anything is
-- changed, and a seed that only the inner circuit refuses has changed the
-- generator of the layers at most, which no later request can tell.
import Garbling.Proofs.Layered.GarblingSucceeds
import Garbling.Proofs.Layered.Sessions

namespace Garbling

theorem Side.exists_expect (side : Side) (received : Option Tables) {wires : Nat}
    (h : wires ≤ 0x100000000) : ∃ side', side.expect wires received = .ok side' := by
  cases received with
  | none => exact ⟨_, rfl⟩
  | some tables => exact ⟨_, bind_eq_ok.2 ⟨(), Layer.checkCount_eq_ok.2 h, rfl⟩⟩

namespace Layered

/-- The request is to pin keys, to take over tables or to garble from a seed. -/
def Request.setsUp : Request → Bool
  | setInputKeys _ | setOutputKeys _ | common (.setTables _) | common (.garbleSeeded _) => true
  | _ => false

/-! ## One failure -/

/-- With no more wires than identity gates have numbers, tables are refused before anything is
changed. -/
theorem setTables_error {P G : Type} {c : Layered P G} (hin : c.inner.inputCount ≤ 0x100000000)
    (hout : c.inner.outputCount ≤ 0x100000000) {tables : LayeredTables} {e : Error}
    (h : (c.setTables tables).1 = .error e) : (c.setTables tables).2 = c := by
  unfold setTables at h ⊢
  split
  · rfl
  split
  · rfl
  rename_i hfits hfits'
  rw [if_neg hfits, if_neg hfits'] at h
  cases hinner : c.inner.setTables tables.inner with
  | error e => rfl
  | ok inner =>
    have hcircuit : inner.circuit = c.inner.circuit := by
      unfold FreeXor.setTables at hinner
      split at hinner
      · cases hinner
        rfl
      · cases hinner
    rw [← FreeXor.inputCount_congr hcircuit] at hin
    rw [← FreeXor.outputCount_congr hcircuit] at hout
    obtain ⟨input, hinput⟩ := c.input.exists_expect tables.input hin
    obtain ⟨output, houtput⟩ := c.output.exists_expect tables.output hout
    rw [hinner] at h
    simp only [hinput, houtput] at h
    cases h

/-- Keys that are refused are not kept. -/
theorem respondPinning_error {P G : Type} {c : Layered P G} {result : Except Error (Layered P G)}
    {e : Error} (h : (c.respondPinning result).1 = .error e) : (c.respondPinning result).2 = c := by
  cases result with
  | error e => rfl
  | ok c' => cases h

variable {kind kind' : StreamKind} {c : Layered (StreamGenerator kind) (StreamGenerator kind')}

/-- After a failure only the generator of the layers may be another one. -/
theorem Garblable.respondAny_error (h : c.Garblable) (hin : c.inner.inputCount ≤ 0x100000000)
    (hout : c.inner.outputCount ≤ 0x100000000) {request : Request}
    (hrequest : request.setsUp = true) {e : Error} (he : (c.respondAny request).1 = .error e) :
    ∃ generator, (c.respondAny request).2 = c.withGenerator generator := by
  cases request with
  | setInputKeys keys => exact ⟨c.generator, respondPinning_error he⟩
  | setOutputKeys keys => exact ⟨c.generator, respondPinning_error he⟩
  | common request =>
    cases request with
    | setTables tables =>
      cases hset : (c.setTables tables).1 with
      | error e => exact ⟨c.generator, setTables_error hin hout hset⟩
      | ok u =>
        simp only [respondAny, respond, hset] at he
        cases he
    | garbleSeeded seed =>
      have hseeded := h.garbleSeeded seed
      split at hseeded
      · obtain ⟨keys, hkeys⟩ := hseeded
        simp only [respondAny, respond, hkeys] at he
        cases he
      · obtain ⟨cause, generator, hfail⟩ := hseeded
        exact ⟨generator, congrArg Prod.snd hfail⟩
    | _ => cases hrequest
  | _ => cases hrequest

/-! ## Failures in a session -/

/-- In every state that a circuit with layers can come to, garbling with random labels succeeds,
and garbling from a seed fails if and only if one of the two generators takes no seed of its
length, which is the error then. When pinning keys, taking over tables or garbling from a seed
fails, then all later requests are answered as if it had not been tried. -/
theorem failed_changes_leave_no_trace {inner : FreeXor (StreamGenerator kind')} {scheme : Scheme}
    (hs : scheme.Shipped) {generator : StreamGenerator kind}
    {start : Layered (StreamGenerator kind) (StreamGenerator kind')}
    (hstart : ofInner inner scheme generator = .ok start)
    (hin : inner.inputCount ≤ 0x100000000) (hout : inner.outputCount ≤ 0x100000000)
    {before : List Request} (hc : Session.after respondAny start before = c) :
    (∀ key rows, ∃ keys, (c.garble key rows).1 = .ok keys) ∧
    (∀ seed, (∃ e, (c.garbleSeeded seed).1 = .error e) ↔
      seed.length ≠ kind.seedSize ∨ seed.length ≠ kind'.seedSize) ∧
    (∀ seed e, (c.garbleSeeded seed).1 = .error e → ∃ cause, e = .invalidSeed cause) ∧
    ∀ request e, request.setsUp = true → (c.respondAny request).1 = .error e →
      ∀ later, Session.answers respondAny (c.respondAny request).2 later =
        Session.answers respondAny c later := by
  obtain ⟨hfollows, hsound⟩ := after_keeps hstart before
  rw [hc] at hfollows hsound
  obtain ⟨hsize, rfl⟩ := ofInner_eq_ok.1 hstart
  have hgarblable : c.Garblable := by
    refine ⟨?_, ?_, hsound⟩
    · rw [hfollows.scheme]
      exact hs
    · rw [hfollows.scheme]
      exact hsize
  rw [← FreeXor.inputCount_congr hfollows.circuit] at hin
  rw [← FreeXor.outputCount_congr hfollows.circuit] at hout
  refine ⟨hgarblable.exists_garble, ?_, ?_, ?_⟩
  · intro seed
    have hseeded := hgarblable.garbleSeeded seed
    rw [← Decidable.not_and_iff_not_or_not]
    constructor
    · rintro ⟨e, he⟩ hboth
      rw [if_pos hboth, he] at hseeded
      obtain ⟨keys, hkeys⟩ := hseeded
      cases hkeys
    · intro hlen
      rw [if_neg hlen] at hseeded
      obtain ⟨cause, left, hfail⟩ := hseeded
      exact ⟨_, congrArg Prod.fst hfail⟩
  · intro seed e he
    have hseeded := hgarblable.garbleSeeded seed
    split at hseeded
    · obtain ⟨keys, hkeys⟩ := hseeded
      rw [hkeys] at he
      cases he
    · obtain ⟨cause, left, hfail⟩ := hseeded
      rw [hfail] at he
      cases he
      exact ⟨cause, rfl⟩
  · intro request e hrequest he later
    obtain ⟨left, hleft⟩ := hgarblable.respondAny_error hin hout hrequest he
    rw [hleft, answers_withGenerator]

/-- One wire, whose generators take seeds of different lengths. -/
def mixedWire : Layered (StreamGenerator .aesCounter) (StreamGenerator .chaCha20) where
  inner := { circuit := ⟨[1], [], [0]⟩, valid := valid_wire, generator := {} }
  scheme := .block
  generator := {}

/-- The generator of the layers takes the seed, but the inner one does not. -/
theorem seed_for_one_generator_leaves_no_trace :
    let c := Session.after respondAny mixedWire [.setInputKeys (Bytes.zeros 32)]
    (∃ e, (c.garbleSeeded (Bytes.zeros 16)).1 = .error e) ∧
      ∀ later, Session.answers respondAny (c.garbleSeeded (Bytes.zeros 16)).2 later =
        Session.answers respondAny c later := by
  intro c
  obtain ⟨_, hseed, _, htrace⟩ := failed_changes_leave_no_trace (c := c) .block
    (show ofInner mixedWire.inner .block {} = .ok mixedWire from rfl) (by decide) (by decide) rfl
  obtain ⟨e, he⟩ := (hseed (Bytes.zeros 16)).2 (.inr (by decide))
  refine ⟨⟨e, he⟩, htrace (.common (.garbleSeeded (Bytes.zeros 16))) e rfl ?_⟩
  simp only [respondAny, respond, he, Except.map]

end Layered

end Garbling
