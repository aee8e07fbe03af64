-- Sessions with a layered circuit. What a session leaves comes from the
-- operations in it alone, and what the generator of the layers has given
-- before is never seen: any seed that it takes starts it afresh.
import Garbling.Layered.Session
import Garbling.Proofs.Layered.Consistency
import Garbling.Proofs.Layered.StreamSeeds
import Garbling.Proofs.Sessions

namespace Garbling.Layered

variable {P G : Type}

/-! ## The operations of a session -/

/-- The operation that a request makes, if it changes anything. -/
def Request.operation? : Request → Option Operation
  | setInputKeys keys => some (.setInputKeys keys)
  | setOutputKeys keys => some (.setOutputKeys keys)
  | common (.garble key rows) => some (.garble key rows)
  | common (.garbleSeeded seed) => some (.garbleSeeded seed)
  | common (.setTables tables) => some (.setTables tables)
  | common (.setTranslation translation) => some (.setTranslation translation)
  | verifyHashed seed inputKeys outputKeys d digest =>
    some (.verifyHashed seed inputKeys outputKeys d digest)
  | _ => none

theorem respondPinning_snd (c : Layered P G) (result : Except Error (Layered P G)) :
    (c.respondPinning result).2 = (c.orUnchanged result).2 := by
  cases result <;> rfl

section

variable [Generator P] [Generator G]

/-- A request leaves what its operation leaves. -/
theorem respondAny_snd (c : Layered P G) (request : Request) :
    (c.respondAny request).2 = request.operation?.elim c fun op => (c.perform op).2 := by
  cases request with
  | common request => cases request <;> rfl
  | setInputKeys keys => exact c.respondPinning_snd _
  | setOutputKeys keys => exact c.respondPinning_snd _
  | _ => rfl

theorem after_eq_run (c : Layered P G) (requests : List Request) :
    Session.after respondAny c requests = c.run (requests.filterMap Request.operation?) := by
  induction requests generalizing c with
  | nil => rfl
  | cons request requests ih =>
    have hsnd := c.respondAny_snd request
    rw [List.filterMap_cons]
    show Session.after respondAny (c.respondAny request).2 requests = _
    rw [hsnd, ih]
    cases request.operation? <;> rfl

/-- A session keeps the circuit and the scheme, and leaves sound sides. -/
theorem after_keeps {inner : FreeXor G} {scheme : Scheme} {generator : P} {start : Layered P G}
    (hstart : ofInner inner scheme generator = .ok start) (requests : List Request) :
    start.Follows (Session.after respondAny start requests) ∧
      (Session.after respondAny start requests).Sound := by
  have hgarbled : start.garbled = true → start.inner.garbled = true := by
    rw [(ofInner_eq_ok.1 hstart).2]
    intro h
    cases h
  rw [after_eq_run]
  exact ⟨(run_keeps hgarbled _).1, (sound_new hstart).run _⟩

end

/-! ## The generator of the layers -/

/-- The circuit with another generator for its layers. -/
def withGenerator (c : Layered P G) (generator : P) : Layered P G := { c with generator }

theorem finish_withGenerator [Generator P] (c : Layered P G) (p : P) (inner : KeyMaterial)
    (order : RowOrder P) : ∃ p', (c.withGenerator p).finish inner order =
      ((c.finish inner order).1, (c.finish inner order).2.withGenerator p') := by
  have hin : (c.withGenerator p).inputTables inner order = c.inputTables inner order := rfl
  unfold finish
  rw [hin]
  rcases c.inputTables inner order with ⟨e | input, next⟩
  · exact ⟨_, rfl⟩
  have hout : (c.withGenerator p).outputTables inner next = c.outputTables inner next := rfl
  simp only [outputTables_input, hout]
  rcases c.outputTables inner next with ⟨e | output, last⟩
  · exact ⟨_, rfl⟩
  · exact ⟨_, rfl⟩

theorem garble_withGenerator [Generator P] (c : Layered P G) (p : P) (key : Block)
    (rows : Nat → Bool) : ∃ p', (c.withGenerator p).garble key rows =
      ((c.garble key rows).1, (c.garble key rows).2.withGenerator p') := by
  have hinner : (c.withGenerator p).inner.garble key = c.inner.garble key := rfl
  unfold garble
  rw [hinner]
  rcases c.inner.garble key with ⟨e | keys, inner⟩
  · exact ⟨p, rfl⟩
  · exact finish_withGenerator { c with inner } p keys (.random rows)

theorem setTables_withGenerator (c : Layered P G) (p : P) (tables : LayeredTables) :
    (c.withGenerator p).setTables tables =
      ((c.setTables tables).1, (c.setTables tables).2.withGenerator p) := by
  unfold setTables withGenerator
  dsimp only
  cases fits c.inner.inputCount tables.input with
  | false => rfl
  | true =>
    cases fits c.inner.outputCount tables.output with
    | false => rfl
    | true =>
      rcases c.inner.setTables tables.inner with e | inner
      · rfl
      rcases hinput : c.input.expect inner.inputCount tables.input with e | input
      · simp only [hinput]
        rfl
      · rcases houtput : c.output.expect inner.outputCount tables.output with e | output
        · simp only [hinput, houtput]
          rfl
        · simp only [hinput, houtput]
          rfl

theorem setInputKeys_withGenerator (c : Layered P G) (p : P) (keys : Bytes) :
    (c.withGenerator p).setInputKeys keys = (c.setInputKeys keys).map (·.withGenerator p) := by
  unfold setInputKeys withGenerator
  cases c.garbled with
  | true => rfl
  | false => cases c.input.pin c.inner.inputCount c.scheme.cipherSize keys <;> rfl

theorem setOutputKeys_withGenerator (c : Layered P G) (p : P) (keys : Bytes) :
    (c.withGenerator p).setOutputKeys keys = (c.setOutputKeys keys).map (·.withGenerator p) := by
  unfold setOutputKeys withGenerator
  cases c.garbled with
  | true => rfl
  | false => cases c.output.pin c.inner.outputCount c.scheme.cipherSize keys <;> rfl

/-- Pinning keys only if some are given. -/
theorem elim_withGenerator (pin : Layered P G → Bytes → Except Error (Layered P G)) {p : P}
    (hpin : ∀ c keys, pin (c.withGenerator p) keys = (pin c keys).map (·.withGenerator p))
    (c : Layered P G) (keys : Option Bytes) :
    keys.elim (.ok (c.withGenerator p)) (pin (c.withGenerator p)) =
      (keys.elim (.ok c) (pin c)).map (·.withGenerator p) := by
  cases keys with
  | none => rfl
  | some keys => exact hpin c keys

/-! ## Sessions with two generators -/

variable {kind : StreamKind} [Generator G]

/-- A seed of the right length starts the generator afresh, and another one is refused. -/
theorem garbleSeeded_withGenerator (c : Layered (StreamGenerator kind) G)
    (p : StreamGenerator kind) (seed : Bytes) : ∃ p', (c.withGenerator p).garbleSeeded seed =
      ((c.garbleSeeded seed).1, (c.garbleSeeded seed).2.withGenerator p') := by
  by_cases hlen : seed.length = kind.seedSize
  · obtain ⟨left, h⟩ := garbleSeeded_of_length c hlen
    obtain ⟨left', h'⟩ := garbleSeeded_of_length (c.withGenerator p) hlen
    have hinner : (c.withGenerator p).inner.garbleSeeded (kind.innerSeed seed) =
        c.inner.garbleSeeded (kind.innerSeed seed) := rfl
    rw [h, h', hinner]
    rcases c.inner.garbleSeeded (kind.innerSeed seed) with ⟨e | keys, inner⟩
    · exact ⟨left', rfl⟩
    · exact ⟨_, rfl⟩
  · rw [garbleSeeded_of_length_ne _ hlen, garbleSeeded_of_length_ne _ hlen]
    exact ⟨p, rfl⟩

theorem garblePinned_withGenerator (c : Layered (StreamGenerator kind) G)
    (p : StreamGenerator kind) (seed : Bytes) (inputKeys outputKeys : Option Bytes) :
    ∃ p', (c.withGenerator p).garblePinned seed inputKeys outputKeys =
      ((c.garblePinned seed inputKeys outputKeys).1,
        (c.garblePinned seed inputKeys outputKeys).2.withGenerator p') := by
  unfold garblePinned
  rw [elim_withGenerator setInputKeys fun c => c.setInputKeys_withGenerator p]
  cases hinput : inputKeys.elim (.ok c) c.setInputKeys with
  | error e => exact ⟨p, rfl⟩
  | ok c =>
    simp only [Except.map]
    rw [elim_withGenerator setOutputKeys fun c => c.setOutputKeys_withGenerator p]
    cases houtput : outputKeys.elim (.ok c) c.setOutputKeys with
    | error e => exact ⟨p, rfl⟩
    | ok c => exact garbleSeeded_withGenerator c p seed

theorem verifyHashed_withGenerator (c : Layered (StreamGenerator kind) G)
    (p : StreamGenerator kind) (seed : Bytes) (inputKeys outputKeys : Option Bytes) (d : Digest)
    (digest : Bytes) :
    ∃ p', (c.withGenerator p).verifyHashed seed inputKeys outputKeys d digest =
      ((c.verifyHashed seed inputKeys outputKeys d digest).1,
        (c.verifyHashed seed inputKeys outputKeys d digest).2.withGenerator p') := by
  obtain ⟨p', h⟩ := garblePinned_withGenerator c p seed inputKeys outputKeys
  have hgarbled : (c.withGenerator p).garbled = c.garbled := rfl
  unfold verifyHashed
  rw [h, hgarbled]
  cases c.garbled with
  | true => exact ⟨p, rfl⟩
  | false =>
    rcases c.garblePinned seed inputKeys outputKeys with ⟨e | keys, c⟩
    · exact ⟨p', rfl⟩
    · exact ⟨p', rfl⟩

/-- Every request is answered alike, and what it leaves differs in the generator at most. -/
theorem respondAny_withGenerator (c : Layered (StreamGenerator kind) G)
    (p : StreamGenerator kind) (request : Request) : ∃ p',
      (c.withGenerator p).respondAny request =
        ((c.respondAny request).1, (c.respondAny request).2.withGenerator p') := by
  cases request with
  | common request =>
    cases request with
    | garble key rows =>
      obtain ⟨p', h⟩ := garble_withGenerator c p key rows
      refine ⟨p', ?_⟩
      simp only [respondAny, respond, h]
    | garbleSeeded seed =>
      obtain ⟨p', h⟩ := garbleSeeded_withGenerator c p seed
      refine ⟨p', ?_⟩
      simp only [respondAny, respond, h]
    | setTables tables =>
      refine ⟨p, ?_⟩
      simp only [respondAny, respond, setTables_withGenerator]
    | _ => exact ⟨p, rfl⟩
  | setInputKeys keys =>
    refine ⟨p, ?_⟩
    simp only [respondAny, setInputKeys_withGenerator]
    cases c.setInputKeys keys <;> rfl
  | setOutputKeys keys =>
    refine ⟨p, ?_⟩
    simp only [respondAny, setOutputKeys_withGenerator]
    cases c.setOutputKeys keys <;> rfl
  | verifyHashed seed inputKeys outputKeys d digest =>
    obtain ⟨p', h⟩ := verifyHashed_withGenerator c p seed inputKeys outputKeys d digest
    refine ⟨p', ?_⟩
    simp only [respondAny, h]
  | _ => exact ⟨p, rfl⟩

/-- What a generator has given does not matter to a session. -/
theorem answers_withGenerator (c : Layered (StreamGenerator kind) G) (p : StreamGenerator kind)
    (requests : List Request) : Session.answers respondAny (c.withGenerator p) requests =
      Session.answers respondAny c requests := by
  refine Session.answers_eq (fun c c' => ∃ p, c' = c.withGenerator p) ?_ ⟨p, rfl⟩ requests
  rintro c _ request ⟨p, rfl⟩
  obtain ⟨p', h⟩ := respondAny_withGenerator c p request
  rw [h]
  exact ⟨rfl, p', rfl⟩

end Garbling.Layered
