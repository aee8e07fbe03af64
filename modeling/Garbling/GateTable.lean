-- The garbled table of an And or Or gate: four rows, each of which holds
-- one output label encrypted under two input labels. The signals of the
-- input labels say which row is theirs.
import Garbling.LabelHash
import Garbling.Rejection

namespace Garbling

/-- The label of a wire for a bit: the label for 0, shifted by the offset for 1. -/
def labelFor (offset zero : Block) (bit : Bool) : Block := if bit then zero ^^^ offset else zero

namespace GateTable

/-- The number of bytes of a table. -/
def size : Nat := 4 * Block.size

/-- The combinations of two bits, in the order of their rows. -/
def bitPairs : List (Bool × Bool) := [(false, false), (false, true), (true, false), (true, true)]

/-- The row of two labels. -/
def rowIndex (a b : Block) : Nat := 2 * a.signal.toNat + b.signal.toNat

/-- The block in a row of a table. -/
def row? (table : Bytes) (index : Nat) : Option Block :=
  (table.slice? (index * Block.size) Block.size).map Block.ofBytes

/-- What the row for two bits holds: the output label, encrypted. -/
def entry (hash : PairHash) (gate : Nat) (op : Bool → Bool → Bool) (offset a b c : Block)
    (x y : Bool) : Block :=
  hash gate (labelFor offset a x) (labelFor offset b y) ^^^ labelFor offset c (op x y)

/-- The table of a gate whose wires have these labels for 0. The offset changes the
signal, so the row of two signals is that of the bits which the signals stand for. -/
def garble (hash : PairHash) (gate : Nat) (op : Bool → Bool → Bool) (offset a b c : Block) :
    Bytes :=
  bitPairs.flatMap fun (s, t) =>
    (entry hash gate op offset a b c (s ^^ a.signal) (t ^^ b.signal)).toBytes

/-- The output label that two input labels decrypt. -/
def open? (hash : PairHash) (gate : Nat) (table : Bytes) (a b : Block) : Option Block :=
  (row? table (rowIndex a b)).map (· ^^^ hash gate a b)

/-- The output label for 0, if the table is one that `garble` gives for the labels of the
input wires. The operation has to give 0 for two zeros: the row of two zeros then names the
label, and the others must hold that label or the shifted one. -/
def audit (hash : PairHash) (gate : Nat) (op : Bool → Bool → Bool) (offset : Block)
    (table : Bytes) (a b : Block) : Except Rejection Block := do
  if table.length ≠ size then
    throw (.tableSize gate)
  let zero ← auditRange (open? hash gate table a b)
  bitPairs.forM fun (x, y) => do
    let label ← auditRange (open? hash gate table (labelFor offset a x) (labelFor offset b y))
    if label ≠ labelFor offset zero (op x y) then
      throw (.rowsDisagree gate)
  return zero

end GateTable

end Garbling
