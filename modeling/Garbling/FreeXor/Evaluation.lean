-- Evaluating a garbled circuit on one key per input wire, and reading
-- bits off the keys that come out.
import Garbling.FreeXor.Basic
import Garbling.GateTable

namespace Garbling.FreeXor

variable {G : Type}

/-- The label that the table of a gate gives for two labels. -/
def openTable (c : FreeXor G) (number : Nat) (a b : Block) : Except Error Block :=
  match c.tables.get? number with
  | none => .error (.missingTable number)
  | some table =>
    if table.length = GateTable.size then
      inRange (GateTable.open? c.hash number table a b)
    else
      .error (.tablesMismatch .gateTableSize)

/-- The label of the wire of a gate, from the labels that it reads. -/
def labelOf (c : FreeXor G) (number : Nat) : Gate Block → Except Error Block
  | .xor x y => .ok (x ^^^ y)
  | .not x => .ok x
  | .and x y | .or x y => c.openTable number x y

/-- The keys of the output wires for one key per input wire. -/
def compute (c : FreeXor G) (keys : Bytes) : Except Error Bytes := do
  if !c.garbled then
    throw .notGarbled
  if keys.length ≠ c.inputCount * keySize then
    throw (.notAllInputsSet (c.inputCount * keySize) keys.length)
  let labels ← c.circuit.propagate .outOfRange c.labelOf (Block.many keys)
  let outputs ← inRange (c.circuit.readOutputs? labels)
  return outputs.flatMap Block.toBytes

/-! ## Translation -/

/-- A byte per output wire: the signal of its key, added to the entry of the translation
table, which is 0 or 1 in an honest one. -/
def translate (c : FreeXor G) (output : Bytes) : Except Error Bytes := do
  KeyArray.checkLength output (c.outputCount * keySize)
  if c.translation.length ≠ c.outputCount then
    throw .notGarbled
  return (Block.many output).zipWith (fun label t => label.signal.toUInt8 ^^^ t) c.translation

/-- Translates after a check that every key is one of the two recorded ones. -/
def verifiedTranslate (c : FreeXor G) (output pairs : Bytes) : Except Error Bytes := do
  KeyArray.checkAllRecorded keySize c.outputCount output pairs
  c.translate output

end Garbling.FreeXor
