-- Checking with both keys of every input wire that a circuit was garbled
-- honestly. The labels of all wires are derived again and compared with
-- what the tables hold.
import Garbling.FreeXor.Basic
import Garbling.GateTable

namespace Garbling.FreeXor

variable {G : Type}

/-- The elements of a list in pairs; a last one without a partner is dropped. -/
def pairUp {α : Type} : List α → List (α × α)
  | a :: b :: rest => (a, b) :: pairUp rest
  | _ => []

/-- The offset between the two labels of the first input wire, if it changes the signal. -/
def offsetOf : List (Block × Block) → Except Rejection Block
  | [] => .error .noInputWires
  | (zero, one) :: _ =>
    if (zero ^^^ one).signal then .ok (zero ^^^ one) else .error .silentOffset

/-- The label for 0 of an input wire, if its labels differ by the offset. -/
def zeroOfPair (offset : Block) (pair : Block × Block) : Except Rejection Block :=
  if pair.1 ^^^ pair.2 = offset then .ok pair.1 else .error .offsetDiffers

/-- The label for 0 that the table of a gate gives, if the table is an honest one. -/
def auditTable (c : FreeXor G) (offset : Block) (number : Nat) (op : Bool → Bool → Bool)
    (a b : Block) : Except Rejection Block :=
  match c.tables.get? number with
  | none => .error (.missingTable number)
  | some table => GateTable.audit c.hash number op offset table a b

/-- The label for 0 of the wire of a gate. -/
def auditGate (c : FreeXor G) (offset : Block) (number : Nat) :
    Gate Block → Except Rejection Block
  | .xor x y => .ok (x ^^^ y)
  | .not x => .ok (x ^^^ offset)
  | .and a b => c.auditTable offset number (· && ·) a b
  | .or a b => c.auditTable offset number (· || ·) a b

/-- Both keys of every output wire, if the tables are honest for the keys of the input
wires. Whether the circuit counts as garbled does not matter, only its tables do. -/
def audit (c : FreeXor G) (pairs : Bytes) : Except Rejection Bytes := do
  if pairs.length ≠ 2 * c.inputCount * keySize then
    throw .keyArrayLength
  if c.tables.size ≠ c.circuit.gates.length then
    throw .slotCount
  let labelPairs := pairUp (Block.many pairs)
  let offset ← offsetOf labelPairs
  let inputs ← labelPairs.mapM (zeroOfPair offset)
  let zeros ← c.circuit.propagate .outOfRange (c.auditGate offset) inputs
  let outputs ← auditRange (c.circuit.readOutputs? zeros)
  return outputs.flatMap fun zero => zero.toBytes ++ (zero ^^^ offset).toBytes

/-- The keys of the output wires, or nothing if the audit refuses. -/
def internalVerify (c : FreeXor G) (pairs : Bytes) : Option Bytes := (c.audit pairs).toOption

/-- The entry of a translation table tells the two labels of a wire apart: it is 0 or 1,
the signal of the label for 0, and not that of the label for 1. -/
def entryHolds (pair : Block × Block) (entry : UInt8) : Bool :=
  entry ≤ 1 && pair.1.signal == (entry == 1) && pair.2.signal != (entry == 1)

/-- The translation table fits the keys of the output wires. -/
def verifyTranslation (c : FreeXor G) (pairs : Bytes) : Bool :=
  pairs.length == 2 * c.outputCount * keySize && c.translation.length == c.outputCount &&
    ((pairUp (Block.many pairs)).zip c.translation).all fun (pair, entry) => entryHolds pair entry

/-- The tables are honest and the translation table fits. -/
def verify (c : FreeXor G) (pairs : Bytes) : Bool :=
  match c.internalVerify pairs with
  | some outputs => c.verifyTranslation outputs
  | none => false

end Garbling.FreeXor
