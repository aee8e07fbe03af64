-- The binary formats of tables, keys, circuits and blocks, which are sent
-- from one party to another.
import Garbling.Binary.Format
import Garbling.Block
import Garbling.Circuit
import Garbling.Tables

namespace Garbling.Format

/-- The sixteen bytes of a block. -/
def block : Format Block := (fixed Block.size).through Block.toBytes Block.ofBytes

/-- The slots of tables. -/
def tables : Format Tables := (list (optional bytes)).through Tables.slots Tables.mk

/-- The inner tables and those of the two sides. -/
def layeredTables : Format LayeredTables :=
  (pair tables (pair (optional tables) (optional tables))).through
    (fun t => (t.inner, t.input, t.output))
    (fun (inner, input, output) => { inner, input, output })

/-- The keys and the translation table that garbling reports. -/
def keyMaterial : Format KeyMaterial :=
  (pair bytes (pair bytes bytes)).through
    (fun k => (k.inputKeys, k.outputKeys, k.translation))
    (fun (inputKeys, outputKeys, translation) => { inputKeys, outputKeys, translation })

/-! ## Circuits -/

/-- The number of a kind of gate, in four bytes. -/
def gateKind : Format Nat := natural 4

/-- The kind of a gate, and then its operands. -/
def gate : Format (Gate Nat) where
  write
    | .xor x y => gateKind.write 0 ++ (pair word word).write (x, y)
    | .and x y => gateKind.write 1 ++ (pair word word).write (x, y)
    | .or x y => gateKind.write 2 ++ (pair word word).write (x, y)
    | .not x => gateKind.write 3 ++ word.write x
  read bytes := do
    let (kind, bytes) ← gateKind.read bytes
    match kind with
    | 0 => ((pair word word).read bytes).map fun ((x, y), rest) => (.xor x y, rest)
    | 1 => ((pair word word).read bytes).map fun ((x, y), rest) => (.and x y, rest)
    | 2 => ((pair word word).read bytes).map fun ((x, y), rest) => (.or x y, rest)
    | 3 => (word.read bytes).map fun (x, rest) => (.not x, rest)
    | kind => throw (.gateKind kind)

/-- The inputs, the gates and the outputs of a circuit. -/
def circuit : Format Circuit :=
  (pair (list word) (pair (list gate) (list word))).through
    (fun c => (c.inputs, c.gates, c.outputs))
    (fun (inputs, gates, outputs) => { inputs, gates, outputs })

end Garbling.Format
