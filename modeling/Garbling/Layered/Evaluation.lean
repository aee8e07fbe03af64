-- Evaluating through the layers, and reading bits off the keys that come
-- out of the inner circuit.
import Garbling.FreeXor.Evaluation
import Garbling.Layered.Basic

namespace Garbling.Layered

variable {P G : Type}

/-- The keys of the output wires, outside and inside the output layer, for one key per
input wire. -/
def compute (c : Layered P G) (keys : Bytes) : Except Error LayeredOutput := do
  if !c.garbled then
    throw .notGarbled
  let expected := c.inner.inputCount * c.inputKeySize
  if keys.length ≠ expected then
    throw (.notAllInputsSet expected keys.length)
  let innerKeys ← match ← c.input.active with
    | none => pure keys
    | some tables =>
      Layer.compute c.scheme tables c.inner.inputCount ⟨keys, c.scheme.cipherSize⟩ FreeXor.keySize
  let inner ← c.inner.compute innerKeys
  let garbled ← match ← c.output.active with
    | none => pure inner
    | some tables =>
      Layer.compute c.scheme tables c.inner.outputCount ⟨inner, FreeXor.keySize⟩ c.scheme.cipherSize
  return { garbled, inner }

/-- A byte per output wire, read off the keys of the inner circuit. -/
def translate (c : Layered P G) (output : LayeredOutput) : Except Error Bytes :=
  c.inner.translate output.inner

/-- Translates after a check that every key that left the circuit is one of the two
recorded ones. -/
def verifiedTranslate (c : Layered P G) (output : LayeredOutput) (pairs : Bytes) :
    Except Error Bytes := do
  KeyArray.checkAllRecorded c.outputKeySize c.inner.outputCount output.garbled pairs
  c.translate output

end Garbling.Layered
