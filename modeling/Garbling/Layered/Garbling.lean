-- Garbling with layers: first the inner circuit, then the tables between
-- its keys and the pinned ones. What a failed attempt has changed by then
-- stays changed, and so every function gives the circuit back as well.
import Garbling.FreeXor.Garbling
import Garbling.Layered.Basic

namespace Garbling.Layered

variable {P G : Type}

/-- The tables of a side, if there are pinned keys to lead to. -/
def layerTables [Generator P] (order : RowOrder P) (keys : Option Bytes)
    (garble : Bytes → Except Error Tables × RowOrder P) : Except Error (Option Tables) × RowOrder P :=
  match keys with
  | none => (.ok none, order)
  | some keys =>
    let (tables, order) := garble keys
    (tables.map some, order)

/-- The tables of the input layer, from the pinned keys to the inner ones. -/
def inputTables [Generator P] (c : Layered P G) (inner : KeyMaterial) (order : RowOrder P) :
    Except Error (Option Tables) × RowOrder P :=
  layerTables order c.input.keysToBridge fun pinned =>
    Layer.garble c.scheme c.inner.inputCount ⟨pinned, c.scheme.cipherSize⟩
      ⟨inner.inputKeys, FreeXor.keySize⟩ order

/-- The tables of the output layer, from the inner keys to the pinned ones. -/
def outputTables [Generator P] (c : Layered P G) (inner : KeyMaterial) (order : RowOrder P) :
    Except Error (Option Tables) × RowOrder P :=
  layerTables order c.output.keysToBridge fun pinned =>
    Layer.garble c.scheme c.inner.outputCount ⟨inner.outputKeys, FreeXor.keySize⟩
      ⟨pinned, c.scheme.cipherSize⟩ order

/-- Makes the tables of both layers on top of a garbling of the inner circuit. Pinned keys
are reported in the place of the inner ones. -/
def finish [Generator P] (c : Layered P G) (inner : KeyMaterial) (order : RowOrder P) :
    Except Error KeyMaterial × Layered P G :=
  match c.inputTables inner order with
  | (.error e, order) => (.error e, { c with generator := order.generatorOr c.generator })
  | (.ok inputTables, order) =>
    let c := { c with input := { c.input with tables := inputTables } }
    match c.outputTables inner order with
    | (.error e, order) => (.error e, { c with generator := order.generatorOr c.generator })
    | (.ok outputTables, order) =>
      let keys : KeyMaterial :=
        { inputKeys := c.input.pinned.getD inner.inputKeys
          outputKeys := c.output.pinned.getD inner.outputKeys
          translation := inner.translation }
      (.ok keys,
        { c with
          generator := order.generatorOr c.generator
          output := { c.output with tables := outputTables }
          garbled := true })

/-- Garbles with a random key for the keystream of the labels and random row orders. -/
def garble [Generator P] (c : Layered P G) (key : Block) (rows : Nat → Bool) :
    Except Error KeyMaterial × Layered P G :=
  match c.inner.garble key with
  | (.error e, inner) => (.error e, { c with inner })
  | (.ok keys, inner) => { c with inner }.finish keys (.random rows)

/-- Two seeds of one length, from the stream of a generator. -/
def drawSeeds [Generator P] (generator : P) (size : Nat) : Except Error (Bytes × Bytes) × P :=
  match Generator.draw generator (2 * size) with
  | (.error e, generator) => (.error (.generator e), generator)
  | (.ok seeds, generator) => (inRange (splitAt? size seeds), generator)

/-- The stream gives as many bytes as it is asked for, enough for both seeds. -/
theorem drawSeeds_eq [Generator P] (generator : P) (size : Nat) :
    drawSeeds generator size =
      match Generator.draw generator (2 * size) with
      | (.error e, generator) => (.error (.generator e), generator)
      | (.ok seeds, generator) => (.ok (seeds.take size, seeds.drop size), generator) := by
  unfold drawSeeds
  rcases h : Generator.draw generator (2 * size) with ⟨e | seeds, next⟩
  · rfl
  · have hlen := Generator.length_of_draw generator (2 * size) seeds (congrArg Prod.fst h)
    have hsplit : splitAt? size seeds = some (seeds.take size, seeds.drop size) :=
      splitAt?_eq_some (by omega)
    dsimp only
    rw [hsplit, inRange]

theorem drawSeeds_eq_ok [Generator P] {generator next : P} {size : Nat}
    {innerSeed rowSeed : Bytes} : drawSeeds generator size = (.ok (innerSeed, rowSeed), next) ↔
      ∃ seeds, Generator.draw generator (2 * size) = (.ok seeds, next) ∧
        seeds.take size = innerSeed ∧ seeds.drop size = rowSeed := by
  rw [drawSeeds_eq]
  rcases Generator.draw generator (2 * size) with ⟨e | seeds, left⟩
  · simp
  · constructor
    · intro h
      cases h
      exact ⟨seeds, rfl, rfl, rfl⟩
    · rintro ⟨_, h, rfl, rfl⟩
      cases h
      rfl

/-- Garbles from a seed. The stream of the seed gives two more seeds of its length: one for
the inner circuit and one for the row orders, so that pinned keys never change the inner
garbling. -/
def garbleSeeded [Generator P] [Generator G] (c : Layered P G) (seed : Bytes) :
    Except Error KeyMaterial × Layered P G :=
  match Generator.rekey c.generator seed with
  | .error e => (.error (.invalidSeed e), c)
  | .ok generator =>
    match drawSeeds generator seed.length with
    | (.error e, generator) => (.error e, { c with generator })
    | (.ok (innerSeed, rowSeed), generator) =>
      match c.inner.garbleSeeded innerSeed with
      | (.error e, inner) => (.error e, { c with generator, inner })
      | (.ok keys, inner) =>
        match Generator.rekey generator rowSeed with
        | .error e => (.error (.invalidSeed e), { c with generator, inner })
        | .ok generator => { c with generator, inner }.finish keys (.seeded generator)

end Garbling.Layered
