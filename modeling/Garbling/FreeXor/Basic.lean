-- A garbled circuit with free Xor: the circuit together with the tables
-- and the translation table that it was given last.
import Garbling.KeyArray
import Garbling.LabelHash
import Garbling.Tables

namespace Garbling

/-- A circuit to garble or to evaluate, with its generator for seeded garbling. -/
structure FreeXor (G : Type) where
  circuit : Circuit
  valid : circuit.Valid
  generator : G
  /-- The hash that encrypts the rows of the tables. -/
  hash : PairHash := fixedPairHash
  tables : Tables := {}
  /-- One signal bit per output wire. -/
  translation : Bytes := []
  /-- Tables have been made here or received. -/
  garbled : Bool := false

namespace FreeXor

variable {G : Type}

/-- The size of every key. -/
def keySize : Nat := Block.size

/-- Takes a circuit that passes the check. -/
def ofCircuit (circuit : Circuit) (generator : G) : Except Error (FreeXor G) :=
  match valid : circuit.validate with
  | .ok () => .ok { circuit, valid, generator }
  | .error cause => .error (.circuit cause)

/-! ## Wires and parties -/

/-- The number of input wires. -/
def inputCount (c : FreeXor G) : Nat := c.circuit.inputCount

/-- The number of output wires. -/
def outputCount (c : FreeXor G) : Nat := c.circuit.outputs.length

/-- The input wires of all parties. -/
def inputWires (c : FreeXor G) : List Nat := List.range c.inputCount

/-- The output wires. -/
def outputWires (c : FreeXor G) : List Nat := c.circuit.outputs

/-- The number of parties. -/
def partyCount (c : FreeXor G) : Nat := c.circuit.inputs.length

/-- The input wires of a party; parties are counted from 1. -/
def partyWires (c : FreeXor G) (party : Nat) : Except Error (List Nat) :=
  match party with
  | 0 => .error (.noSuchParty 0)
  | index + 1 =>
    match c.circuit.partyWires[index]? with
    | some wires => .ok wires
    | none => .error (.noSuchParty party)

/-- The keys for the input bits of a party. -/
def garbledInput (c : FreeXor G) (bits pairs : Bytes) (party : Nat) : Except Error Bytes := do
  let wires ← c.partyWires party
  KeyArray.select keySize c.inputCount bits pairs wires

/-! ## Tables from elsewhere -/

/-- Takes over tables with one slot per gate. -/
def setTables (c : FreeXor G) (tables : Tables) : Except Error (FreeXor G) :=
  if tables.size = c.circuit.gates.length then
    .ok { c with tables, garbled := true }
  else
    .error (.tablesMismatch .slotCount)

/-- Takes over a translation table of any length. -/
def setTranslation (c : FreeXor G) (translation : Bytes) : FreeXor G := { c with translation }

end FreeXor

end Garbling
