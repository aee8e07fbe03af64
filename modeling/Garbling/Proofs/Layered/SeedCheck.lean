-- Checking a seed against a digest. Without tables, an instance garbles
-- from the seed, and the answer is about the seed, whatever keys are
-- pinned. With tables of its own it compares these, whatever the seed is.
import Garbling.Proofs.Layered.Seeding

namespace Garbling.Layered

variable {P G : Type}

/-! ## The two ways of the check -/

theorem verifyHashedCircuit_eq_true {c : Layered P G} {d : Digest} {digest : Bytes} :
    c.verifyHashedCircuit d digest = true ↔ (c.hashedCircuit d).1 = digest := beq_iff_eq

/-- A new hash object gives the digest of the committed bytes alone. -/
theorem hashedCircuit_new (c : Layered P G) :
    (c.hashedCircuit {}).1 = Cipher.Blake3.hash c.committedBytes := by
  simp only [hashedCircuit, Digest.finalize, Digest.absorbed_update, List.nil_append]

section

variable [Generator P] [Generator G] {c c' : Layered P G} {seed digest : Bytes}
  {inputKeys outputKeys : Option Bytes} {d : Digest}

/-- With tables, the circuit itself is compared, and it stays as it is. -/
theorem verifyHashed_of_garbled (h : c.garbled = true) :
    c.verifyHashed seed inputKeys outputKeys d digest =
      (.ok (c.verifyHashedCircuit d digest), c) := by
  rw [verifyHashed, if_pos h]

/-- Pinning keys and garbling is garbling from the seed, in another state of the circuit. -/
theorem of_garblePinned {keys : KeyMaterial}
    (h : c.garblePinned seed inputKeys outputKeys = (.ok keys, c')) :
    ∃ pinned, c.Follows pinned ∧ pinned.garbleSeeded seed = (.ok keys, c') := by
  unfold garblePinned at h
  split at h
  · cases h
  rename_i c1 hinput
  split at h
  · cases h
  rename_i c2 houtput
  have hf1 := of_elim c.Follows (.refl c) (fun _ _ h => (follows_setInputKeys h).1) hinput
  have hf2 := of_elim c1.Follows (.refl c1) (fun _ _ h => (follows_setOutputKeys h).1) houtput
  exact ⟨c2, hf1.trans hf2, h⟩

/-- Without tables, the circuit that is compared is one that was garbled from the seed. -/
theorem of_verifyHashed {accepted : Bool} (hg : c.garbled = false)
    (h : c.verifyHashed seed inputKeys outputKeys d digest = (.ok accepted, c')) :
    accepted = c'.verifyHashedCircuit d digest ∧
      ∃ pinned keys, c.Follows pinned ∧ pinned.garbleSeeded seed = (.ok keys, c') := by
  unfold verifyHashed at h
  rw [if_neg (by simp [hg])] at h
  split at h
  · cases h
  · rename_i keys made hgarble
    rw [Prod.mk.injEq, Except.ok.injEq] at h
    obtain ⟨haccepted, rfl⟩ := h
    obtain ⟨pinned, hfollows, hseeded⟩ := of_garblePinned hgarble
    exact ⟨haccepted.symm, pinned, keys, hfollows, hseeded⟩

/-! ## What an answer says -/

/-- A check that gives an answer, after any operations on an instance. If the instance had not
been supplied with tables before, then a new one over the circuit is garbled from the seed, and
the answer is yes if and only if this has the digest. If it had, then the answer is the same for
all seeds and keys, and it is yes if and only if the tables that are there have the digest. -/
theorem seed_check_is_about_the_seed_iff_there_were_no_tables [Restarting P] [Restarting G]
    {circuit : Circuit} {scheme scheme' : Scheme} {start fresh : Layered P G}
    (hstart : start.IsNew circuit scheme) (hfresh : fresh.IsNew circuit scheme')
    {ops : List Operation} {accepted : Bool}
    (h : (start.run ops).verifyHashed seed inputKeys outputKeys d digest = (.ok accepted, c')) :
    (¬ start.Supplied ops → ∃ keys made, fresh.garbleSeeded seed = (.ok keys, made) ∧
      (accepted = true ↔ (made.hashedCircuit d).1 = digest)) ∧
    (start.Supplied ops →
      (accepted = true ↔ ((start.run ops).hashedCircuit d).1 = digest) ∧
      ∀ seed' inputKeys' outputKeys',
        (start.run ops).verifyHashed seed' inputKeys' outputKeys' d digest =
          (.ok accepted, start.run ops)) := by
  obtain ⟨hcircuit, hhash, _, hsupplied⟩ := hstart.run ops
  rw [← hsupplied]
  constructor
  · intro hg
    obtain ⟨hcircuit', hhash', _, hinput, houtput⟩ := hfresh.eq
    obtain ⟨haccepted, pinned, keys, hfollows, hseeded⟩ :=
      of_verifyHashed (by simpa using hg) h
    obtain ⟨keys', made, hmade, htables, htranslation⟩ := garbleSeeded_of_unlayered
      (hcircuit'.trans (hfollows.circuit.trans hcircuit).symm)
      (hhash'.trans (hfollows.hash.trans hhash).symm) (by rw [hinput]) (by rw [houtput]) hseeded
    refine ⟨keys', made, hmade, ?_⟩
    rw [haccepted, verifyHashedCircuit_eq_true, hashedCircuit_congr htables htranslation]
  · intro hg
    rw [verifyHashed_of_garbled hg, Prod.mk.injEq, Except.ok.injEq] at h
    obtain ⟨haccepted, _⟩ := h
    rw [← haccepted]
    exact ⟨verifyHashedCircuit_eq_true, fun _ _ _ => verifyHashed_of_garbled hg⟩

end

/-! ## One wire -/

/-- Another seed than that of zeros. -/
def otherSeed : Bytes := List.replicate 16 2

theorem committedBytes_of_garbleSeeded [Generator P] [Generator G] {c : Layered P G}
    {seed bytes : Bytes} (h : (c.garbleSeeded seed).1.toOption.isSome = true ∧
      (c.garbleSeeded seed).2.committedBytes = bytes) :
    ∃ keys made, c.garbleSeeded seed = (.ok keys, made) ∧ made.committedBytes = bytes := by
  rcases hgarble : c.garbleSeeded seed with ⟨e | keys, made⟩
  · rw [hgarble] at h
    cases h.1
  · rw [hgarble] at h
    exact ⟨keys, made, rfl, h.2⟩

theorem garbleSeeded_newWire_zeros : ∃ keys made,
    newWire.garbleSeeded (Bytes.zeros 16) = (.ok keys, made) ∧ made.committedBytes = [1] :=
  committedBytes_of_garbleSeeded (by decide +kernel)

theorem garbleSeeded_newWire_other : ∃ keys made,
    newWire.garbleSeeded otherSeed = (.ok keys, made) ∧ made.committedBytes = [0] :=
  committedBytes_of_garbleSeeded (by decide +kernel)

theorem wire_with_other_keys_is_accepted_for_its_seed : ∃ keys made c',
    newWire.garbleSeeded (Bytes.zeros 16) = (.ok keys, made) ∧ ¬ newWire.Supplied [] ∧
    (newWire.run []).verifyHashed (Bytes.zeros 16) none (some wireKeys) {}
      (made.hashedCircuit {}).1 = (.ok true, c') := by
  obtain ⟨keys, made, hgarble, _⟩ := garbleSeeded_newWire_zeros
  obtain ⟨pinnedKeys, c', hpinned, _⟩ := garbleSeeded_pinnedWire
  have hpin : newWire.garblePinned (Bytes.zeros 16) none (some wireKeys) =
      (.ok pinnedKeys, c') := hpinned
  have hcheck : (newWire.run []).verifyHashed (Bytes.zeros 16) none (some wireKeys) {}
      (made.hashedCircuit {}).1 =
        (.ok (c'.verifyHashedCircuit {} (made.hashedCircuit {}).1), c') := by
    have hnew : (newWire.run []) = newWire := rfl
    unfold verifyHashed
    rw [hnew, if_neg (by decide), hpin]
  obtain ⟨hanswer, _⟩ := seed_check_is_about_the_seed_iff_there_were_no_tables isNew_newWire
    isNew_newWire hcheck
  obtain ⟨keys', made', hgarble', haccepted⟩ := hanswer (supplied_nil newWire)
  rw [hgarble, Prod.mk.injEq] at hgarble'
  obtain ⟨_, rfl⟩ := hgarble'
  refine ⟨keys, made, c', hgarble, supplied_nil newWire, ?_⟩
  rw [hcheck, haccepted.2 rfl]

/-- An instance that was garbled from zeros accepts the digest of its circuit for another seed,
although a new instance that is garbled from that seed has another digest. -/
theorem check_after_garbling_accepts_another_seed : ∃ keys made keys' made',
    newWire.garbleSeeded (Bytes.zeros 16) = (.ok keys, made) ∧
    newWire.run [.garbleSeeded (Bytes.zeros 16)] = made ∧
    made.verifyHashed otherSeed none none {} (made.hashedCircuit {}).1 = (.ok true, made) ∧
    newWire.garbleSeeded otherSeed = (.ok keys', made') ∧
    (made'.hashedCircuit {}).1 ≠ (made.hashedCircuit {}).1 := by
  obtain ⟨keys, made, hgarble, hbytes⟩ := garbleSeeded_newWire_zeros
  obtain ⟨keys', made', hgarble', hbytes'⟩ := garbleSeeded_newWire_other
  have hgarbles : newWire.Garbles keys made := .seeded _ hgarble
  obtain ⟨_, _, _, _, hfinished⟩ := hgarbles.finished
  have hdigests : Cipher.Blake3.hash [0] ≠ Cipher.Blake3.hash [1] := by decide +kernel
  refine ⟨keys, made, keys', made', hgarble, ?_, ?_, hgarble', ?_⟩
  · exact congrArg Prod.snd hgarble
  · rw [verifyHashed_of_garbled hfinished.garbled, verifyHashedCircuit_eq_true.2 rfl]
  · rw [hashedCircuit_new, hashedCircuit_new, hbytes, hbytes']
    exact hdigests

end Garbling.Layered
