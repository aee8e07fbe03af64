-- A garbled circuit whose keys at the borders can be chosen. On a side
-- with pinned keys, identity gates lead between these and the keys of the
-- inner circuit. A side without them passes the inner keys through.
import Garbling.FreeXor.Basic
import Garbling.Layered.Layer

namespace Garbling

/-- What is known of one side of the circuit. -/
structure Side where
  /-- There is a layer of identity gates. -/
  layered : Bool := false
  /-- The keys that were pinned, both for every wire. -/
  pinned : Option Bytes := none
  /-- The tables of the identity gates. -/
  tables : Option Tables := none
deriving DecidableEq, Repr

namespace Side

/-- The tables of the layer, or none without a layer; a layer needs tables to be used. -/
def active (side : Side) : Except Error (Option Tables) :=
  if side.layered then
    match side.tables with
    | some tables => .ok (some tables)
    | none => .error .notGarbled
  else
    .ok none

/-- The pinned keys that garbling makes a layer of tables for. -/
def keysToBridge (side : Side) : Option Bytes := if side.layered then side.pinned else none

/-- Pins the keys of the wires of the side. -/
def pin (side : Side) (wires size : Nat) (keys : Bytes) : Except Error Side := do
  KeyArray.checkLength keys (2 * wires * size)
  Layer.checkCount wires
  return { side with layered := true, pinned := some keys }

/-- Puts up a layer for tables that were received, or takes it down with the pinned keys
if there are none. -/
def expect (side : Side) (wires : Nat) (received : Option Tables) : Except Error Side :=
  match received with
  | none => .ok { side with layered := false, pinned := none }
  | some _ => do
    Layer.checkCount wires
    return { side with layered := true }

end Side

/-- A circuit between two optional layers of identity gates. The generator `P` is the one
of the layers, `G` that of the inner circuit. -/
structure Layered (P G : Type) where
  inner : FreeXor G
  scheme : Scheme
  generator : P
  input : Side := {}
  output : Side := {}
  /-- Tables have been made here or received. -/
  garbled : Bool := false

/-- The result of an evaluation: the keys that leave the circuit, and those that leave
the inner circuit, which are the ones to translate. -/
structure LayeredOutput where
  garbled : Bytes
  inner : Bytes
deriving DecidableEq, Repr

namespace Layered

variable {P G : Type}

/-- Puts a scheme around a circuit, if the inner keys fit into its blocks. -/
def ofInner (inner : FreeXor G) (scheme : Scheme) (generator : P) : Except Error (Layered P G) :=
  if FreeXor.keySize ≤ scheme.cipherSize then
    .ok { inner, scheme, generator }
  else
    .error (.keySizeMismatch FreeXor.keySize scheme.cipherSize)

/-- The size of the keys of a side. -/
def sideKeySize (c : Layered P G) (side : Side) : Nat :=
  if side.layered then c.scheme.cipherSize else FreeXor.keySize

/-- The size of the keys that go in. -/
def inputKeySize (c : Layered P G) : Nat := c.sideKeySize c.input

/-- The size of the keys that come out. -/
def outputKeySize (c : Layered P G) : Nat := c.sideKeySize c.output

/-- The keys for the input bits of a party. Its wires are looked up among the input wires,
since identity gates go by the position of a wire. -/
def garbledInput (c : Layered P G) (bits pairs : Bytes) (party : Nat) : Except Error Bytes := do
  let wires ← c.inner.partyWires party
  let positions ← wires.mapM fun wire =>
    match c.inner.inputWires.idxOf? wire with
    | some position => .ok position
    | none => .error (.noSuchParty party)
  KeyArray.select c.inputKeySize c.inner.inputCount bits pairs positions

/-! ## Pinned keys -/

/-- Pins both keys of every input wire, before garbling. -/
def setInputKeys (c : Layered P G) (keys : Bytes) : Except Error (Layered P G) := do
  if c.garbled then
    throw .alreadyGarbled
  let input ← c.input.pin c.inner.inputCount c.scheme.cipherSize keys
  return { c with input }

/-- Pins both keys of every output wire, before garbling. -/
def setOutputKeys (c : Layered P G) (keys : Bytes) : Except Error (Layered P G) := do
  if c.garbled then
    throw .alreadyGarbled
  let output ← c.output.pin c.inner.outputCount c.scheme.cipherSize keys
  return { c with output }

/-! ## Tables from elsewhere -/

/-- The tables of the inner circuit and of both layers. -/
def tables (c : Layered P G) : LayeredTables :=
  { inner := c.inner.tables, input := c.input.tables, output := c.output.tables }

/-- The received tables of a side have one slot per wire. -/
def fits (wires : Nat) (received : Option Tables) : Bool := received.all (·.size == wires)

/-- Takes over tables. Which sides have a layer then follows from the tables alone, and
keys stay pinned only on a side with one. -/
def setTables (c : Layered P G) (tables : LayeredTables) : Except Error Unit × Layered P G :=
  if !fits c.inner.inputCount tables.input then
    (.error (.tablesMismatch .inputSlotCount), c)
  else if !fits c.inner.outputCount tables.output then
    (.error (.tablesMismatch .outputSlotCount), c)
  else
    match c.inner.setTables tables.inner with
    | .error e => (.error e, c)
    | .ok inner =>
      match c.input.expect inner.inputCount tables.input with
      | .error e => (.error e, { c with inner })
      | .ok input =>
        match c.output.expect inner.outputCount tables.output with
        | .error e => (.error e, { c with inner, input })
        | .ok output =>
          let input := { input with tables := tables.input }
          let output := { output with tables := tables.output }
          (.ok (), { c with inner, input, output, garbled := true })

/-- Takes over a translation table of any length. -/
def setTranslation (c : Layered P G) (translation : Bytes) : Layered P G :=
  { c with inner := c.inner.setTranslation translation }

end Layered

end Garbling
