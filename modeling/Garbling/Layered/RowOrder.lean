-- Where the order of the rows of identity tables comes from: random bits,
-- or one byte of a generator's stream for each table.
import Garbling.Error

namespace Garbling

/-- A source of row orders. -/
inductive RowOrder (G : Type) where
  /-- Random bits, one after the other. -/
  | random (bits : Nat → Bool)
  /-- The lowest bit of the next byte that a generator gives. -/
  | seeded (generator : G)

namespace RowOrder

variable {G : Type}

/-- Whether the row of the key for 0 comes second in the next table. -/
def next [Generator G] : RowOrder G → Except Error Bool × RowOrder G
  | random bits => (.ok (bits 0), random fun i => bits (i + 1))
  | seeded generator =>
    match Generator.draw generator 1 with
    | (.error e, generator) => (.error (.generator e), seeded generator)
    | (.ok bytes, generator) =>
      ((inRange bytes.head?).map fun byte => byte % 2 == 1, seeded generator)

/-- A stream gives the byte that it is asked for. -/
theorem next_seeded [Generator G] (generator : G) : (seeded generator).next =
    match Generator.draw generator 1 with
    | (.error e, generator) => (.error (.generator e), seeded generator)
    | (.ok bytes, generator) => (.ok (bytes.headD 0 % 2 == 1), seeded generator) := by
  dsimp only [next]
  rcases h : Generator.draw generator 1 with ⟨e | bytes, left⟩
  · rfl
  · obtain ⟨byte, rfl⟩ := List.length_eq_one_iff.1
      (Generator.length_of_draw generator 1 bytes (congrArg Prod.fst h))
    rfl

/-- The generator after its use here, or the given one if none was used. -/
def generatorOr (unused : G) : RowOrder G → G
  | random _ => unused
  | seeded generator => generator

end RowOrder

end Garbling
