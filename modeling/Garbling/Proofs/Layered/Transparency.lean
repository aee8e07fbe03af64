-- A layered circuit without pinned keys answers like its inner circuit.
-- Both are asked the same, and all that differs is what an accepted seed
-- stands for: the layered circuit draws the inner seed from its stream.
import Garbling.Layered.Session
import Garbling.Proofs.Layered.Preparation
import Garbling.Proofs.Layered.StreamSeeds
import Garbling.Proofs.Outcomes
import Garbling.Proofs.Parties
import Garbling.Proofs.Sessions

namespace Garbling

/-! ## The same question and the same answer -/

namespace Request

variable {O T O' T' : Type}

/-- The same request with another seed, about the outputs and tables of another circuit. -/
def map (onSeed : Bytes → Bytes) (onOutput : O → O') (onTables : T → T') :
    Request O T → Request O' T'
  | garble key rows => garble key rows
  | garbleSeeded seed => garbleSeeded (onSeed seed)
  | garbledInput bits pairs party => garbledInput bits pairs party
  | compute keys => compute keys
  | verify pairs => verify pairs
  | internalVerify pairs => internalVerify pairs
  | verifyTranslation pairs => verifyTranslation pairs
  | translate output => translate (onOutput output)
  | verifiedTranslate output pairs => verifiedTranslate (onOutput output) pairs
  | tables => tables
  | setTables received => setTables (onTables received)
  | translation => translation
  | setTranslation received => setTranslation received
  | inputWires => inputWires
  | outputWires => outputWires
  | partyWires party => partyWires party
  | partySize party => partySize party
  | partyCount => partyCount

end Request

namespace Answer

variable {O T O' T' : Type}

/-- The same answer, with the outputs and tables of another circuit. -/
def map (onOutput : O → O') (onTables : T → T') : Answer O T → Answer O' T'
  | done => done
  | keys k => keys k
  | bytes bs => bytes bs
  | output o => output (onOutput o)
  | verdict accepted => verdict accepted
  | audited outputs => audited outputs
  | tables t => tables (onTables t)
  | wires ws => wires ws
  | count n => count n

end Answer

namespace Layered

/-- An output that leaves the circuit as it leaves the inner one. -/
def sameOutput (keys : Bytes) : LayeredOutput := { garbled := keys, inner := keys }

/-- The tables of an inner circuit, without any for layers. -/
def bareTables (tables : Tables) : LayeredTables := { inner := tables }

/-! ## A circuit without layers -/

section

variable {P G : Type}

/-- The circuit `plain` without layers around it. What the generators have given so far does not
matter. -/
def bare (plain : FreeXor G) (scheme : Scheme) (p : P) (g : G) : Layered P G :=
  { inner := { plain with generator := g }, scheme, generator := p, garbled := plain.garbled }

variable (plain : FreeXor G) (scheme : Scheme) (p : P) (g : G)

/-- The layered circuit makes the checks of the inner one before it, with the same errors. -/
theorem compute_bare (keys : Bytes) :
    (bare plain scheme p g).compute keys = (plain.compute keys).map sameOutput := by
  have hsteps : (bare plain scheme p g).compute keys =
      if !plain.garbled then throw .notGarbled
      else if keys.length ≠ plain.inputCount * FreeXor.keySize then
        throw (.notAllInputsSet (plain.inputCount * FreeXor.keySize) keys.length)
      else plain.compute keys >>= fun inner => pure (sameOutput inner) := rfl
  rw [hsteps]
  by_cases hg : (!plain.garbled) = true
  · rw [if_pos hg, FreeXor.compute, if_pos hg]
    rfl
  · by_cases hlen : keys.length ≠ plain.inputCount * FreeXor.keySize
    · rw [if_neg hg, if_pos hlen, FreeXor.compute, if_neg hg]
      simp only [if_pos hlen]
      rfl
    · rw [if_neg hg, if_neg hlen]
      cases plain.compute keys <;> rfl

theorem audit_bare (pairs : Bytes) : (bare plain scheme p g).audit pairs =
    (plain.audit pairs).map fun outputs => ⟨outputs, outputs⟩ := by
  show (plain.audit pairs >>= fun inner => pure (AuditedOutputs.mk inner inner)) = _
  cases plain.audit pairs <;> rfl

theorem internalVerify_bare (pairs : Bytes) :
    (bare plain scheme p g).internalVerify pairs = plain.internalVerify pairs := by
  rw [internalVerify, audit_bare, FreeXor.internalVerify]
  cases plain.audit pairs <;> rfl

theorem verify_bare (pairs : Bytes) :
    (bare plain scheme p g).verify pairs = plain.verify pairs := by
  rw [verify, audit_bare, FreeXor.verify, FreeXor.internalVerify]
  cases plain.audit pairs <;> rfl

theorem garbledInput_bare (bits pairs : Bytes) (party : Nat) :
    (bare plain scheme p g).garbledInput bits pairs party =
      plain.garbledInput bits pairs party := garbledInput_eq _ bits pairs party

theorem verifiedTranslate_bare (output pairs : Bytes) :
    (bare plain scheme p g).verifiedTranslate (sameOutput output) pairs =
      plain.verifiedTranslate output pairs := rfl

theorem setTables_bare (tables : Tables) :
    (bare plain scheme p g).setTables (bareTables tables) =
      match plain.setTables tables with
      | .ok plain => (.ok (), bare plain scheme p g)
      | .error e => (.error e, bare plain scheme p g) := by
  unfold setTables FreeXor.setTables
  by_cases hsize : tables.size = plain.circuit.gates.length
  · rw [if_pos hsize]
    simp [fits, bareTables, bare, hsize, Side.expect]
  · rw [if_neg hsize]
    simp [fits, bareTables, bare, hsize]

/-! ## Garbling it -/

variable [Generator P]

/-- Without layers the last step of garbling adds nothing. -/
theorem finish_bare (garbled : Bool) (hg : plain.garbled = true) (keys : KeyMaterial)
    (order : RowOrder P) :
    ({ bare plain scheme p g with garbled } : Layered P G).finish keys order =
      (.ok keys, bare plain scheme (order.generatorOr p) g) := by
  unfold finish bare
  rw [hg]
  rfl

theorem garble_bare (key : Block) (rows : Nat → Bool) :
    (bare plain scheme p g).garble key rows =
      ((plain.garble key).1, bare (plain.garble key).2 scheme p g) := by
  obtain ⟨keys, made, hmade⟩ := FreeXor.exists_garble plain key
  obtain ⟨_, _, _, _, honest⟩ := FreeXor.honest_of_garble hmade
  have hinner : (bare plain scheme p g).inner.garble key =
      ((plain.garble key).1, { (plain.garble key).2 with generator := g }) :=
    FreeXor.garble_generator plain g key
  unfold garble
  rw [hinner, hmade]
  exact finish_bare made scheme p g plain.garbled honest.garbled keys (.random rows)

end

/-! ## Whole sessions -/

section

variable {kind : StreamKind} {plain : FreeXor (StreamGenerator kind)} {scheme : Scheme}

variable (plain scheme) in
/-- The layered circuit garbles the inner one from the seed that its own seed stands for. -/
theorem garbleSeeded_bare (p g : StreamGenerator kind) (seed : Bytes) :
    ∃ p' g', (bare plain scheme p g).garbleSeeded seed =
      ((plain.garbleSeeded (kind.innerSeed seed)).1,
        bare (plain.garbleSeeded (kind.innerSeed seed)).2 scheme p' g') := by
  have hlen := kind.length_innerSeed seed
  by_cases h : seed.length = kind.seedSize
  · obtain ⟨left, hsteps⟩ := garbleSeeded_of_length (bare plain scheme p g) h
    obtain ⟨keys, made, hmade⟩ := FreeXor.exists_garbleSeeded plain (hlen.trans h)
    obtain ⟨_, _, _, _, honest⟩ := FreeXor.honest_of_garbleSeeded hmade
    refine ⟨⟨some (kind.start (kind.rowSeed seed))⟩, made.generator, ?_⟩
    rw [hsteps, show (bare plain scheme p g).inner.garbleSeeded (kind.innerSeed seed) =
      (.ok keys, made) from (FreeXor.garbleSeeded_generator plain g (hlen.trans h)).trans hmade,
      hmade]
    exact finish_bare made scheme _ _ plain.garbled honest.garbled keys _
  · have hne : (kind.innerSeed seed).length ≠ kind.seedSize := by rwa [hlen]
    refine ⟨p, g, ?_⟩
    rw [garbleSeeded_of_length_ne _ h, FreeXor.garbleSeeded_of_length_ne _ hne, hlen]

/-- An answer of the inner circuit, as the layered circuit gives it. -/
def passedOn (answer : Except Error (Garbling.Answer Bytes Tables)) :
    Except Error (Garbling.Answer LayeredOutput LayeredTables) :=
  answer.map (.map sameOutput bareTables)

/-- A value that holds no outputs and no tables of the circuit is passed on as it is. -/
theorem passedOn_map {α : Type} (x : Except Error α) {pack : α → Garbling.Answer Bytes Tables}
    {pack' : α → Garbling.Answer LayeredOutput LayeredTables}
    (h : ∀ a, pack' a = (pack a).map sameOutput bareTables) :
    x.map pack' = passedOn (x.map pack) := by
  cases x with
  | error e => rfl
  | ok a => exact congrArg Except.ok (h a)

/-- Whatever is asked, the layered circuit answers as its inner circuit does, and it stays without
layers. -/
theorem respond_bare (p g : StreamGenerator kind) (request : Garbling.Request Bytes Tables) :
    ((bare plain scheme p g).respond (request.map id sameOutput bareTables)).1 =
        passedOn (plain.respond (request.map kind.innerSeed id id)).1 ∧
      ∃ p' g', ((bare plain scheme p g).respond (request.map id sameOutput bareTables)).2 =
        bare (plain.respond (request.map kind.innerSeed id id)).2 scheme p' g' := by
  cases request with
  | garble key rows =>
    have h := garble_bare plain scheme p g key rows
    simp only [Garbling.Request.map, respond, FreeXor.respond, h]
    exact ⟨passedOn_map _ fun _ => rfl, p, g, rfl⟩
  | garbleSeeded seed =>
    obtain ⟨p', g', h⟩ := garbleSeeded_bare plain scheme p g seed
    simp only [Garbling.Request.map, respond, FreeXor.respond, id, h]
    exact ⟨passedOn_map _ fun _ => rfl, p', g', rfl⟩
  | setTables tables =>
    simp only [Garbling.Request.map, respond, FreeXor.respond, id, setTables_bare]
    cases plain.setTables tables with
    | error e => exact ⟨rfl, p, g, rfl⟩
    | ok plain => exact ⟨rfl, p, g, rfl⟩
  | compute keys =>
    refine ⟨?_, p, g, rfl⟩
    simp only [Garbling.Request.map, respond, FreeXor.respond, compute_bare]
    cases plain.compute keys <;> rfl
  | setTranslation translation => exact ⟨rfl, p, g, rfl⟩
  | _ =>
    -- The other requests leave both circuits as they are.
    refine ⟨?_, p, g, rfl⟩
    simp only [Garbling.Request.map, respond, FreeXor.respond, id, garbledInput_bare, verify_bare,
      internalVerify_bare, verifiedTranslate_bare]
    first
    | rfl
    | exact passedOn_map _ fun _ => rfl

/-- A new layered circuit without pinned keys answers every session as a new circuit without
layers does, its errors included: evaluations give the same keys outside and inside, and there are
never tables for layers. Both circuits have generators of one kind. A seed of the layered circuit
stands for the beginning of its stream, of the same length, if it is the seed of a stream at all,
and otherwise for itself. -/
theorem unpinned_circuit_is_transparent {circuit : Circuit}
    {start : Layered (StreamGenerator kind) (StreamGenerator kind)}
    (hplain : FreeXor.ofCircuit circuit ({} : StreamGenerator kind) = .ok plain)
    (hstart : ofInner plain scheme ({} : StreamGenerator kind) = .ok start)
    (requests : List (Garbling.Request Bytes Tables)) :
    Session.answers respond start (requests.map (.map id sameOutput bareTables)) =
      (Session.answers FreeXor.respond plain (requests.map (.map kind.innerSeed id id))).map
        passedOn := by
  have hbare : start = bare plain scheme {} plain.generator := by
    obtain ⟨_, rfl⟩ := ofInner_eq_ok.1 hstart
    unfold FreeXor.ofCircuit at hplain
    split at hplain
    · cases hplain
      rfl
    · cases hplain
  refine Session.answers_alike (fun plain c => ∃ p g, c = bare plain scheme p g) _ _ passedOn ?_
    ⟨_, _, hbare⟩ requests
  rintro plain _ request ⟨p, g, rfl⟩
  exact respond_bare p g request

/-- An input that is too short, for a negation that is not garbled yet and then for one that
is, and a seed of the wrong length. -/
def failingRequests : List (Garbling.Request Bytes Tables) :=
  [.compute [], .garbleSeeded [1], .garbleSeeded (Bytes.zeros 16), .compute [], .tables]

theorem bare_negation_is_transparent :
    FreeXor.ofCircuit ⟨[1], [.not 0], [1]⟩ {} = .ok newNegation.inner ∧
      ofInner newNegation.inner .block {} = .ok newNegation ∧
      Session.answers respond newNegation (failingRequests.map (.map id sameOutput bareTables)) =
        (Session.answers FreeXor.respond newNegation.inner
          (failingRequests.map (.map StreamKind.aesCounter.innerSeed id id))).map passedOn := by
  have hplain : FreeXor.ofCircuit ⟨[1], [.not 0], [1]⟩ {} = .ok newNegation.inner := rfl
  have hstart : ofInner newNegation.inner .block {} = .ok newNegation := rfl
  exact ⟨hplain, hstart, unpinned_circuit_is_transparent hplain hstart failingRequests⟩

end

end Layered

end Garbling
