-- Why an audit refuses a garbled circuit. An auditor only shows whether
-- it refuses; the causes are for the reader and for the laws.
import Garbling.Error

namespace Garbling

/-- Why an audit refuses. -/
inductive Rejection where
  /-- The circuit, or one of its sides, has no tables yet. -/
  | notGarbled
  | keyArrayLength
  | slotCount
  /-- Without input wires there is no pair of keys to read the offset from. -/
  | noInputWires
  /-- The offset of the labels does not change their signal. -/
  | silentOffset
  /-- The two labels of an input wire do not differ by the common offset. -/
  | offsetDiffers
  | missingTable (gate : Nat)
  | tableSize (gate : Nat)
  /-- The rows of a table do not lead to two labels that differ by the offset. -/
  | rowsDisagree (gate : Nat)
  /-- A key of an identity gate does not open exactly one row. -/
  | rowsOpened (gate : Nat)
  /-- Both keys of an identity gate open the same row. -/
  | sameRow (gate : Nat)
  /-- The bytes after a key in an identity table are not all zero. -/
  | padding (gate : Nat)
  /-- An identity table cannot be read with a key. -/
  | unreadable (cause : Error)
  /-- A read past the end. No audit of a circuit that was checked gives it. -/
  | outOfRange
deriving DecidableEq, Repr

/-- The value, or the refusal because of a read past the end. -/
def auditRange {α : Type} : Option α → Except Rejection α
  | some a => .ok a
  | none => .error .outOfRange

end Garbling
