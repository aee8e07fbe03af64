-- The labels of one garbling: a global offset, a label for 0 of every
-- input wire, and a fresh one for the wire of every gate with a table.
-- The labels of the free gates follow from these.
import Garbling.GateTable
import Garbling.Tables

namespace Garbling.FreeXor

/-- The random labels of a garbling. There is a fresh label for each gate, of which that
of a free gate is not used. -/
structure Labels where
  offset : Block
  inputs : List Block
  fresh : List Block

/-! ## Drawing them -/

/-- A fresh label for each gate with a table, in gate order, and zero for the others. -/
def drawFresh : List (Gate Nat) → CounterStream → List Block × CounterStream
  | [], s => ([], s)
  | gate :: gates, s =>
    if gate.needsTable then
      let (label, s) := s.readBlock
      let (labels, s) := drawFresh gates s
      (label :: labels, s)
    else
      let (labels, s) := drawFresh gates s
      (0 :: labels, s)

namespace Labels

/-- Draws the offset, the labels of the input wires and the fresh labels, in this order. -/
def draw (c : Circuit) (s : CounterStream) : Labels :=
  let (offset, s) := s.readBlock
  let (inputs, s) := s.readBlocks c.inputCount
  let (fresh, _) := drawFresh c.gates s
  { offset := offset.withSignal, inputs, fresh }

/-! ## What follows from them -/

/-- The fresh label of a gate. -/
def freshAt (l : Labels) (gate : Nat) : Block := l.fresh.getD gate 0

/-- The label for 0 of the wire of a gate. -/
def zeroOf (l : Labels) (number : Nat) : Gate Block → Block
  | .xor x y => x ^^^ y
  | .not x => x ^^^ l.offset
  | .and _ _ | .or _ _ => l.freshAt number

/-- The labels for 0 of all wires. -/
def zeros (l : Labels) (c : Circuit) : Except Error (Array Block) :=
  c.propagate .outOfRange (fun number gate => .ok (l.zeroOf number gate)) l.inputs

/-- The table of a gate, given the label for 0 of its own wire, or none for a free gate. -/
def tableOf (l : Labels) (hash : PairHash) (number : Nat) (zero : Block) :
    Gate Block → Option Bytes
  | .and a b => some (GateTable.garble hash number (· && ·) l.offset a b zero)
  | .or a b => some (GateTable.garble hash number (· || ·) l.offset a b zero)
  | .xor _ _ | .not _ => none

/-- Both labels of a wire, as keys. -/
def keyPair (l : Labels) (zero : Block) : Bytes := zero.toBytes ++ (zero ^^^ l.offset).toBytes

/-- The tables of a circuit and the keys at its borders. -/
def garble (l : Labels) (hash : PairHash) (c : Circuit) : Except Error (KeyMaterial × Tables) := do
  let zeros ← l.zeros c
  let slots ← c.gates.zipIdx.mapM fun (gate, number) => inRange do
    let operands ← gate.resolve? (zeros[·]?)
    let zero ← zeros[c.gateWire number]?
    return l.tableOf hash number zero operands
  let (inputs, _) ← inRange (splitAt? c.inputCount zeros.toList)
  let outputs ← inRange (c.readOutputs? zeros)
  let keys : KeyMaterial :=
    { inputKeys := inputs.flatMap l.keyPair
      outputKeys := outputs.flatMap l.keyPair
      translation := outputs.map fun zero => zero.signal.toUInt8 }
  return (keys, ⟨slots⟩)

end Labels

end Garbling.FreeXor
