-- Auditing through the layers: the input layer, the inner circuit and the
-- output layer, each with the keys that the one before it gave.
import Garbling.FreeXor.Audit
import Garbling.Layered.Basic

namespace Garbling.Layered

variable {P G : Type}

/-- Both keys of every output wire, inside and outside the output layer. -/
structure AuditedOutputs where
  inner : Bytes
  outer : Bytes
deriving DecidableEq, Repr

/-- The tables of a side, which has to be garbled if it has a layer. -/
def auditSide (side : Side) : Except Rejection (Option Tables) :=
  side.active.mapError fun _ => .notGarbled

/-- The keys of the output wires, if all tables are honest for the keys of the input
wires. -/
def audit (c : Layered P G) (pairs : Bytes) : Except Rejection AuditedOutputs := do
  let innerPairs ← match ← auditSide c.input with
    | none => pure pairs
    | some tables =>
      Layer.audit c.scheme tables c.inner.inputCount ⟨pairs, c.scheme.cipherSize⟩ FreeXor.keySize
  let inner ← c.inner.audit innerPairs
  let outer ← match ← auditSide c.output with
    | none => pure inner
    | some tables =>
      Layer.audit c.scheme tables c.inner.outputCount ⟨inner, FreeXor.keySize⟩ c.scheme.cipherSize
  return { inner, outer }

/-- The keys that leave the circuit, or nothing if the audit refuses. -/
def internalVerify (c : Layered P G) (pairs : Bytes) : Option Bytes :=
  (c.audit pairs).toOption.map (·.outer)

/-- The translation table fits the keys of the output wires of the inner circuit. -/
def verifyTranslation (c : Layered P G) (pairs : Bytes) : Bool := c.inner.verifyTranslation pairs

/-- All tables are honest, the keys that leave the circuit are the pinned ones if there
are some, and the translation table fits. -/
def verify (c : Layered P G) (pairs : Bytes) : Bool :=
  match c.audit pairs with
  | .error _ => false
  | .ok outputs => c.output.pinned.all (· == outputs.outer) && c.verifyTranslation outputs.inner

/-- All tables are honest, the keys that leave the circuit are the expected ones, and the
translation table fits. -/
def verifyWithOutputs (c : Layered P G) (pairs expected : Bytes) : Bool :=
  match c.audit pairs with
  | .error _ => false
  | .ok outputs => outputs.outer == expected && c.verifyTranslation outputs.inner

end Garbling.Layered
