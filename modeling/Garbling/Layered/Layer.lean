-- A layer of identity gates on one side of a circuit: one gate per wire,
-- numbered by the position of the wire on its side.
import Garbling.IdentityGate
import Garbling.KeyArray
import Garbling.Layered.RowOrder
import Garbling.Tables

namespace Garbling.Layer

/-- Keys of one size in an array. -/
structure Keys where
  bytes : Bytes
  size : Nat

namespace Keys

/-- Both keys of a wire, in an array of pairs. -/
def pairAt? (keys : Keys) (wire : Nat) : Option (Bytes × Bytes) := do
  let key0 ← KeyArray.bitKeyAt? keys.size keys.bytes wire false
  let key1 ← KeyArray.bitKeyAt? keys.size keys.bytes wire true
  return (key0, key1)

/-- The key of a wire, in an array of single keys. -/
def keyAt? (keys : Keys) (wire : Nat) : Option Bytes := KeyArray.keyAt? keys.size keys.bytes wire

end Keys

/-- The number that an identity gate is encrypted under. -/
def gateNumber (position : Nat) : UInt32 := UInt32.ofNat position

/-- Refuses more wires than identity gates have numbers. -/
def checkCount (wires : Nat) : Except Error Unit :=
  if wires ≤ 0x100000000 then .ok () else .error (.tablesMismatch .tooManyIdentityGates)

/-! ## Garbling -/

variable {G : Type}

/-- The table of the gate at a position, from `source` keys to `target` keys. -/
def tableAt (s : Scheme) (source target : Keys) (position : Nat) (zeroSecond : Bool) :
    Except Error Bytes := do
  let inputs ← inRange (source.pairAt? position)
  let outputs ← inRange (target.pairAt? position)
  IdentityGate.table s (gateNumber position) zeroSecond inputs outputs

/-- The tables of the gates at some positions, in order. -/
def tablesAt [Generator G] (s : Scheme) (source target : Keys) :
    RowOrder G → List Nat → Except Error (List Bytes) × RowOrder G
  | order, [] => (.ok [], order)
  | order, position :: rest =>
    match order.next with
    | (.error e, order) => (.error e, order)
    | (.ok zeroSecond, order) =>
      match tableAt s source target position zeroSecond with
      | .error e => (.error e, order)
      | .ok table =>
        match tablesAt s source target order rest with
        | (.error e, order) => (.error e, order)
        | (.ok tables, order) => (.ok (table :: tables), order)

/-- The tables of a whole layer, between two arrays of pairs. -/
def garble [Generator G] (s : Scheme) (wires : Nat) (source target : Keys) (order : RowOrder G) :
    Except Error Tables × RowOrder G :=
  let lengths := do
    KeyArray.checkLength source.bytes (2 * wires * source.size)
    KeyArray.checkLength target.bytes (2 * wires * target.size)
  match lengths with
  | .error e => (.error e, order)
  | .ok () =>
    let (tables, order) := tablesAt s source target order (List.range wires)
    (tables.map fun tables => ⟨tables.map some⟩, order)

/-! ## Evaluation -/

/-- The output key of the gate at a position. -/
def computeAt (s : Scheme) (tables : Tables) (keys : Keys) (outputSize position : Nat) :
    Except Error Bytes := do
  match tables.get? position with
  | none => throw (.missingTable position)
  | some table =>
    let key ← inRange (keys.keyAt? position)
    IdentityGate.compute s (gateNumber position) table key outputSize

/-- The output keys of all wires, from an array of single keys. -/
def compute (s : Scheme) (tables : Tables) (wires : Nat) (keys : Keys) (outputSize : Nat) :
    Except Error Bytes := do
  let outputs ← (List.range wires).mapM (computeAt s tables keys outputSize)
  return outputs.flatten

/-! ## Audit -/

/-- Both output keys of the gate at a position. -/
def auditAt (s : Scheme) (tables : Tables) (keys : Keys) (outputSize position : Nat) :
    Except Rejection Bytes := do
  match tables.get? position with
  | none => throw (.missingTable position)
  | some table =>
    let inputs ← auditRange (keys.pairAt? position)
    let (key0, key1) ← IdentityGate.audit s (gateNumber position) table inputs outputSize
    return key0 ++ key1

/-- Both output keys of all wires, from an array of pairs. -/
def audit (s : Scheme) (tables : Tables) (wires : Nat) (keys : Keys) (outputSize : Nat) :
    Except Rejection Bytes := do
  if tables.size ≠ wires then
    throw .slotCount
  if keys.bytes.length ≠ 2 * wires * keys.size then
    throw .keyArrayLength
  let outputs ← (List.range wires).mapM (auditAt s tables keys outputSize)
  return outputs.flatten

end Garbling.Layer
