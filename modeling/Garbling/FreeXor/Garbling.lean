-- Garbling a circuit with free Xor. The generator is only asked for the
-- key of a keystream, from which all labels are drawn. What a failed
-- attempt has changed by then stays changed, and so every function gives
-- the circuit back as well.
import Garbling.FreeXor.Basic
import Garbling.FreeXor.Labels

namespace Garbling.FreeXor

variable {G : Type}

/-- Garbles with the given labels. -/
def garbleWith (c : FreeXor G) (labels : Labels) : Except Error KeyMaterial × FreeXor G :=
  match labels.garble c.hash c.circuit with
  | .error e => (.error e, c)
  | .ok (keys, tables) =>
    (.ok keys, { c with tables, translation := keys.translation, garbled := true })

/-- Garbles with labels from the keystream of a random key. -/
def garble (c : FreeXor G) (key : Block) : Except Error KeyMaterial × FreeXor G :=
  c.garbleWith (Labels.draw c.circuit (CounterStream.ofKey key))

/-- Garbles with labels that follow from a seed: the generator is keyed with the seed and
gives the key of the keystream. -/
def garbleSeeded [Generator G] (c : FreeXor G) (seed : Bytes) :
    Except Error KeyMaterial × FreeXor G :=
  match Generator.rekey c.generator seed with
  | .error e => (.error (.invalidSeed e), c)
  | .ok generator =>
    match Generator.draw generator Block.size with
    | (.error e, generator) => (.error (.generator e), { c with generator })
    | (.ok key, generator) => { c with generator }.garble (Block.ofBytes key)

end Garbling.FreeXor
