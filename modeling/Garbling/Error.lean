-- The errors of garbling, evaluating and translating a circuit, as
-- causes, with one wording for each. A refused audit is no error.
import Garbling.Circuit
import Garbling.Generator
import Garbling.MultiKey.Scheme

namespace Garbling

/-- In what way tables do not fit a circuit. -/
inductive TablesFault where
  | gateTableSize
  | identityTableSize
  | slotCount
  | inputSlotCount
  | outputSlotCount
  | tooManyIdentityGates
deriving DecidableEq, Repr

def TablesFault.message : TablesFault → String
  | .gateTableSize => "garbled table of a gate has the wrong size"
  | .identityTableSize => "identity table has the wrong size"
  | .slotCount => "one table slot per gate is required"
  | .inputSlotCount => "one input identity table per input wire is required"
  | .outputSlotCount => "one output identity table per output wire is required"
  | .tooManyIdentityGates => "too many identity gates"

/-- Why an operation on a garbled circuit fails. -/
inductive Error where
  | notAllInputsSet (expected actual : Nat)
  /-- An output key is neither of the two recorded keys of its wire. -/
  | cheatAttempt (wire : Nat)
  /-- A key opens no row of an identity table. -/
  | invalidWireValue (gate : Nat)
  /-- A seed does not key the generator. -/
  | invalidSeed (cause : GeneratorError)
  /-- The generator fails after it was keyed. -/
  | generator (cause : GeneratorError)
  | encryption (cause : SchemeError)
  | noSuchParty (party : Nat)
  | wrongInputSize (expected actual : Nat)
  | wrongKeySize (expected actual : Nat)
  /-- The inner keys do not fit into a block of the scheme. -/
  | keySizeMismatch (inner cipher : Nat)
  | missingTable (gate : Nat)
  | tablesMismatch (fault : TablesFault)
  | notGarbled
  | alreadyGarbled
  | circuit (cause : CircuitError)
  /-- A read or a copy past the end of a byte string or of the wires. No operation on a
  circuit that was checked gives it. -/
  | outOfRange
deriving DecidableEq, Repr

def Error.message : Error → String
  | .notAllInputsSet expected actual =>
    s!"not all inputs are set: expected {expected} bytes of garbled input, found {actual}"
  | .cheatAttempt wire =>
    s!"the garbled output of wire {wire} is not one of its two possible keys"
  | .invalidWireValue gate =>
    s!"the key given to identity gate {gate} is not a valid input wire value"
  | .invalidSeed cause => "invalid seed: " ++ cause.message
  | .generator cause => "PRG error: " ++ cause.message
  | .encryption cause => "encryption error: " ++ cause.message
  | .noSuchParty party => s!"party {party} does not exist"
  | .wrongInputSize expected actual => s!"wrong input, expected {expected} bits, found {actual}"
  | .wrongKeySize expected actual =>
    s!"wrong key array, expected {expected} bytes, found {actual}"
  | .keySizeMismatch inner cipher =>
    s!"inner keys of {inner} bytes do not fit into ciphertexts of {cipher} bytes"
  | .missingTable gate => s!"gate {gate} has no garbled table"
  | .tablesMismatch fault => "garbled tables do not match the circuit: " ++ fault.message
  | .notGarbled => "the circuit has not been garbled yet"
  | .alreadyGarbled => "keys must be set before the circuit is garbled"
  | .circuit cause => "invalid circuit: " ++ cause.message
  | .outOfRange => "read out of range"

/-- The value, or the error of a read or a copy past the end. -/
def inRange {α : Type} : Option α → Except Error α
  | some a => .ok a
  | none => .error .outOfRange

end Garbling
