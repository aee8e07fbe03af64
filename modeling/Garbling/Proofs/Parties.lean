-- What the parties send. Each party looks up the keys for its own bits,
-- and together, party after party, they give one key for every input
-- wire, both with and without layers.
import Garbling.Layered.Basic
import Garbling.Proofs.KeyArray.Choice

namespace Garbling

/-! ## Wires of the parties -/

namespace Circuit

theorem length_wireRuns (next : Nat) (counts : List Nat) :
    (wireRuns next counts).length = counts.length := by
  induction counts generalizing next with
  | nil => rfl
  | cons n ns ih => simp [wireRuns, ih]

/-- Each party has as many wires as the circuit says. -/
theorem map_length_wireRuns (next : Nat) (counts : List Nat) :
    (wireRuns next counts).map List.length = counts := by
  induction counts generalizing next with
  | nil => rfl
  | cons n ns ih => simp [wireRuns, ih]

theorem lt_of_mem_wireRuns {next : Nat} {counts wires : List Nat}
    (h : wires ∈ wireRuns next counts) : ∀ w ∈ wires, w < next + counts.foldr (· + ·) 0 := by
  induction counts generalizing next with
  | nil => cases h
  | cons n ns ih =>
    intro w hw
    rw [List.foldr_cons]
    rcases List.mem_cons.1 h with rfl | h
    · have := (List.mem_range'_1.1 hw).2
      omega
    · have := ih h w hw
      omega

/-- Dealt out to the wires of the parties, the elements stand at their own numbers. -/
theorem flatMap_zip_wireRuns {α : Type} {next : Nat} {counts : List Nat} {parts : List (List α)}
    (h : parts.map List.length = counts) :
    ((parts.zip (wireRuns next counts)).flatMap fun part => part.1.zip part.2) =
      parts.flatten.zipIdx next := by
  induction parts generalizing next counts with
  | nil => subst h; rfl
  | cons part parts ih =>
    subst h
    rw [List.map_cons, wireRuns, List.zip_cons_cons, List.flatMap_cons, ih rfl, List.flatten_cons,
      List.zipIdx_append, ← List.zipIdx_eq_zip_range']

end Circuit

/-! ## One key for every input wire -/

/-- What all parties send, one after the other; parties are counted from 1. -/
def joined (send : Bytes → Nat → Except Error Bytes) (inputs : List Bytes) :
    Except Error Bytes := do
  let parts ← (inputs.zipIdx 1).mapM fun (bits, party) => send bits party
  return parts.flatten

/-- What is made of each byte and its index, if the bytes stand for the bits of the wires. -/
theorem map_zipIdx_of_bits {α : Type} {bytes : Bytes} {wires : Nat} {bit : Nat → Bool}
    (hbit : bytes.map (· != 0) = (List.range wires).map bit) (f : Bool → Nat → α) :
    (bytes.zipIdx.map fun (byte, wire) => f (byte != 0) wire) =
      (List.range wires).map fun wire => f (bit wire) wire := by
  have hlen : bytes.length = wires := by
    have := congrArg List.length hbit
    rwa [List.length_map, List.length_map, List.length_range] at this
  apply List.ext_getElem
  · rw [List.length_map, List.length_zipIdx, List.length_map, List.length_range, hlen]
  · intro i h1 h2
    have hi : i < bytes.length := by simpa using h1
    have hget : (bytes.map (· != 0))[i]? = ((List.range wires).map bit)[i]? := by rw [hbit]
    rw [List.getElem?_map, List.getElem?_eq_getElem hi, List.getElem?_map,
      List.getElem?_range (by omega), Option.map_some, Option.map_some, Option.some.injEq] at hget
    rw [List.getElem_map, List.getElem_zipIdx, List.getElem_map, List.getElem_range]
    simp only [Nat.zero_add, hget]

namespace KeyArray

theorem select_eq_ok {size wires : Nat} {bits pairs : Bytes} {positions : List Nat}
    (hbits : bits.length = positions.length) (hpairs : pairs.length = 2 * wires * size)
    (hpositions : ∀ w ∈ positions, w < wires) :
    select size wires bits pairs positions =
      .ok ((bits.zip positions).flatMap fun (bit, wire) => keyFor size pairs wire (bit != 0)) := by
  have hkeys : ((bits.zip positions).mapM fun (bit, wire) =>
      inRange (bitKeyAt? size pairs wire (bit != 0))) =
      .ok ((bits.zip positions).map fun (bit, wire) => keyFor size pairs wire (bit != 0)) := by
    refine mapM_ok fun ⟨bit, wire⟩ hmem => ?_
    exact inRange_eq_ok.2 (bitKeyAt?_eq_some hpairs (hpositions wire (List.of_mem_zip hmem).2))
  unfold select checkLength
  rw [if_neg (by simp [hbits]), if_pos hpairs, hkeys, List.flatMap_def]
  rfl

/-- If every party selects the keys of its own wires, they send a choice of keys for all
input wires. -/
theorem joined_select {c : Circuit} {size : Nat} {pairs : Bytes} {inputs : List Bytes}
    {send : Bytes → Nat → Except Error Bytes} {bit : Nat → Bool}
    (hinputs : inputs.map List.length = c.inputs)
    (hbit : inputs.flatten.map (· != 0) = (List.range c.inputCount).map bit)
    (hsend : ∀ bits (party : Nat) wires, c.partyWires[party]? = some wires →
      bits.length = wires.length → send bits (party + 1) =
        .ok ((bits.zip wires).flatMap fun (bit, wire) => keyFor size pairs wire (bit != 0))) :
    joined send inputs = .ok (choose size c.inputCount pairs bit) := by
  have hcount : inputs.length = c.partyWires.length := by
    rw [Circuit.partyWires, Circuit.length_wireRuns, ← hinputs, List.length_map]
  have hparts : ((inputs.zipIdx 1).mapM fun (bits, party) => send bits party) =
      .ok ((inputs.zip c.partyWires).map fun part =>
        (part.1.zip part.2).flatMap fun (bit, wire) => keyFor size pairs wire (bit != 0)) := by
    rw [mapM_eq_ok]
    apply List.ext_getElem
    · simp [hcount]
    · intro i h1 h2
      have hi : i < inputs.length := by simpa using h1
      have hparty : i < c.partyWires.length := by omega
      have hlen : inputs[i].length = c.partyWires[i].length := by
        have hmaps : inputs.map List.length = c.partyWires.map List.length := by
          rw [hinputs, Circuit.partyWires, Circuit.map_length_wireRuns]
        have hget := congrArg (·[i]?) hmaps
        simpa [hi, hparty] using hget
      have := hsend inputs[i] i c.partyWires[i] (List.getElem?_eq_getElem hparty) hlen
      simpa [Nat.add_comm 1] using this
  have hdealt : ((inputs.zip c.partyWires).flatMap fun part => part.1.zip part.2) =
      inputs.flatten.zipIdx := Circuit.flatMap_zip_wireRuns hinputs
  unfold joined
  rw [hparts, ok_bind, ← List.flatMap_def, ← List.flatMap_assoc, hdealt, choose, List.flatMap_def,
    List.flatMap_def, map_zipIdx_of_bits hbit fun b wire => keyFor size pairs wire b]
  rfl

end KeyArray

/-! ## With and without layers -/

namespace FreeXor

variable {G : Type}

/-- The wires of a party are input wires. -/
theorem lt_of_mem_partyWires {c : FreeXor G} {party : Nat} {wires : List Nat}
    (h : c.partyWires party = .ok wires) : ∀ w ∈ wires, w < c.inputCount := by
  unfold partyWires at h
  split at h
  · cases h
  split at h
  · rename_i found hfound
    cases h
    intro w hw
    have := Circuit.lt_of_mem_wireRuns (List.mem_of_getElem? hfound) w hw
    rwa [Nat.zero_add] at this
  · cases h

/-- An input wire is its own position among the input wires. -/
theorem idxOf?_inputWires {c : FreeXor G} {wire : Nat} (h : wire < c.inputCount) :
    c.inputWires.idxOf? wire = some wire := by
  rw [List.idxOf?_eq_some_iff]
  refine ⟨by simpa [inputWires] using h, by simp [inputWires], ?_⟩
  intro j hj
  simp only [inputWires, List.getElem_range]
  omega

/-- The keys that all parties send for their bits. -/
def garbledInputs (c : FreeXor G) (inputs : List Bytes) (pairs : Bytes) : Except Error Bytes :=
  joined (fun bits party => c.garbledInput bits pairs party) inputs

theorem garbledInputs_eq_ok {c : FreeXor G} {inputs : List Bytes} {pairs : Bytes}
    {bit : Nat → Bool} (hinputs : inputs.map List.length = c.circuit.inputs)
    (hbit : inputs.flatten.map (· != 0) = (List.range c.inputCount).map bit)
    (hpairs : pairs.length = 2 * c.inputCount * keySize) :
    c.garbledInputs inputs pairs = .ok (KeyArray.choose keySize c.inputCount pairs bit) := by
  refine KeyArray.joined_select hinputs hbit fun bits party wires hwires hlen => ?_
  have hparty : c.partyWires (party + 1) = .ok wires := by
    simp only [partyWires, hwires]
  rw [garbledInput, hparty, ok_bind]
  exact KeyArray.select_eq_ok hlen hpairs (lt_of_mem_partyWires hparty)

end FreeXor

namespace Layered

variable {P G : Type}

/-- Since each input wire is its own position, the search for the positions finds the wires. -/
theorem garbledInput_eq (c : Layered P G) (bits pairs : Bytes) (party : Nat) :
    c.garbledInput bits pairs party = c.inner.partyWires party >>=
      KeyArray.select c.inputKeySize c.inner.inputCount bits pairs := by
  unfold garbledInput
  cases hwires : c.inner.partyWires party with
  | error e => rfl
  | ok wires =>
    -- Each input wire stands at its own number among the input wires.
    refine (congrArg (· >>= KeyArray.select c.inputKeySize c.inner.inputCount bits pairs)
      (mapM_ok (g := id) fun wire hwire => ?_)).trans ?_
    · rw [FreeXor.idxOf?_inputWires (FreeXor.lt_of_mem_partyWires hwires wire hwire)]
      rfl
    · rw [List.map_id]

/-- The keys that all parties send for their bits. -/
def garbledInputs (c : Layered P G) (inputs : List Bytes) (pairs : Bytes) : Except Error Bytes :=
  joined (fun bits party => c.garbledInput bits pairs party) inputs

theorem garbledInputs_eq_ok {c : Layered P G} {inputs : List Bytes} {pairs : Bytes}
    {bit : Nat → Bool} (hinputs : inputs.map List.length = c.inner.circuit.inputs)
    (hbit : inputs.flatten.map (· != 0) = (List.range c.inner.inputCount).map bit)
    (hpairs : pairs.length = 2 * c.inner.inputCount * c.inputKeySize) :
    c.garbledInputs inputs pairs =
      .ok (KeyArray.choose c.inputKeySize c.inner.inputCount pairs bit) := by
  refine KeyArray.joined_select hinputs hbit fun bits party wires hwires hlen => ?_
  have hparty : c.inner.partyWires (party + 1) = .ok wires := by
    simp only [FreeXor.partyWires, hwires]
  rw [garbledInput_eq, hparty, ok_bind]
  exact KeyArray.select_eq_ok hlen hpairs (FreeXor.lt_of_mem_partyWires hparty)

end Layered

end Garbling
