-- Garbling from a seed with the two kinds of streams. A seed of another
-- length is refused before anything is changed, and with a seed of the
-- right length no generator fails any more.
import Garbling.Layered.Garbling
import Garbling.Proofs.FreeXor.Correctness
import Garbling.Proofs.Keystreams

namespace Garbling

/-! ## What a seed stands for -/

namespace StreamKind

/-- The seed of the inner circuit that a layered circuit takes from the stream of its own seed:
as many bytes from the beginning of the stream. A seed that starts no stream stands for itself. -/
def innerSeed (kind : StreamKind) (seed : Bytes) : Bytes :=
  if seed.length = kind.seedSize then (kind.read (kind.start seed) seed.length).1 else seed

/-- The seed of the row orders, which is taken from the same stream after that of the inner
circuit. -/
def rowSeed (kind : StreamKind) (seed : Bytes) : Bytes :=
  (kind.read (kind.start seed) (2 * seed.length)).1.drop seed.length

theorem length_innerSeed (kind : StreamKind) (seed : Bytes) :
    (kind.innerSeed seed).length = seed.length := by
  unfold innerSeed
  split
  · exact kind.length_read _ _
  · rfl

theorem length_rowSeed (kind : StreamKind) (seed : Bytes) :
    (kind.rowSeed seed).length = seed.length := by
  rw [rowSeed, List.length_drop, kind.length_read]
  omega

end StreamKind

/-! ## The inner circuit -/

namespace FreeXor

/-- Garbling from a random key has nothing to do with the generator. -/
theorem garble_generator {G : Type} (c : FreeXor G) (generator : G) (key : Block) :
    ({ c with generator } : FreeXor G).garble key =
      ((c.garble key).1, { (c.garble key).2 with generator }) := by
  unfold garble garbleWith
  cases (Labels.draw c.circuit (CounterStream.ofKey key)).garble c.hash c.circuit <;> rfl

variable {kind : StreamKind} (c : FreeXor (StreamGenerator kind)) {seed : Bytes}

theorem garbleSeeded_of_length (h : seed.length = kind.seedSize) :
    c.garbleSeeded seed =
      ({ c with generator := ⟨some (kind.read (kind.start seed) Block.size).2⟩ } :
        FreeXor (StreamGenerator kind)).garble
          (Block.ofBytes (kind.read (kind.start seed) Block.size).1) := by
  unfold garbleSeeded
  rw [StreamGenerator.rekey_eq, if_pos h]
  rfl

theorem garbleSeeded_of_length_ne (h : seed.length ≠ kind.seedSize) :
    c.garbleSeeded seed = (.error (.invalidSeed (.seedLength kind.seedSize seed.length)), c) := by
  unfold garbleSeeded
  rw [StreamGenerator.rekey_eq, if_neg h]

theorem exists_garbleSeeded (h : seed.length = kind.seedSize) :
    ∃ keys made, c.garbleSeeded seed = (.ok keys, made) := by
  rw [garbleSeeded_of_length c h]
  exact exists_garble _ _

/-- What the generator has given before does not matter to a seed of the right length. -/
theorem garbleSeeded_generator (g : StreamGenerator kind) (h : seed.length = kind.seedSize) :
    ({ c with generator := g } : FreeXor (StreamGenerator kind)).garbleSeeded seed =
      c.garbleSeeded seed := by
  rw [garbleSeeded_of_length _ h, garbleSeeded_of_length _ h]

end FreeXor

/-! ## With layers -/

namespace Layered

variable {kind : StreamKind} {G : Type} [Generator G] (c : Layered (StreamGenerator kind) G)
  {seed : Bytes}

theorem garbleSeeded_of_length_ne (h : seed.length ≠ kind.seedSize) :
    c.garbleSeeded seed = (.error (.invalidSeed (.seedLength kind.seedSize seed.length)), c) := by
  unfold garbleSeeded
  rw [StreamGenerator.rekey_eq, if_neg h]

/-- The inner circuit is garbled from its own seed, and the row orders come from the other one. -/
theorem garbleSeeded_of_length (h : seed.length = kind.seedSize) : ∃ left : StreamGenerator kind,
    c.garbleSeeded seed =
      match c.inner.garbleSeeded (kind.innerSeed seed) with
      | (.error e, inner) => (.error e, { c with generator := left, inner })
      | (.ok keys, inner) =>
        let rows : StreamGenerator kind := ⟨some (kind.start (kind.rowSeed seed))⟩
        ({ c with generator := rows, inner } : Layered (StreamGenerator kind) G).finish keys
          (.seeded rows) := by
  have hinner : (kind.read (kind.start seed) (2 * seed.length)).1.take seed.length =
      kind.innerSeed seed := by
    rw [StreamKind.innerSeed, if_pos h]
    exact kind.take_read _ (by omega)
  have hrows : (kind.rowSeed seed).length = kind.seedSize := (kind.length_rowSeed seed).trans h
  refine ⟨⟨some (kind.read (kind.start seed) (2 * seed.length)).2⟩, ?_⟩
  unfold garbleSeeded
  simp only [StreamGenerator.rekey_eq, if_pos h, drawSeeds_eq, StreamGenerator.draw_eq, hinner]
  rcases c.inner.garbleSeeded (kind.innerSeed seed) with ⟨e | keys, inner⟩
  · rfl
  · have hdrop : (kind.read (kind.start seed) (2 * seed.length)).1.drop seed.length =
        kind.rowSeed seed := rfl
    simp only [hdrop, if_pos hrows]

end Layered

end Garbling
