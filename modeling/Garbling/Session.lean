-- What can be asked of a garbled circuit, whatever kind of circuit it is.
-- A request is answered by a value or by an error and leaves a circuit
-- behind, so that a session is one request after another.
import Garbling.FreeXor.Audit
import Garbling.FreeXor.Evaluation
import Garbling.FreeXor.Garbling

namespace Garbling

/-! ## Requests and answers -/

/-- A request to a garbled circuit. Its evaluations give outputs of the type `O`, and its
tables are of the type `T`. -/
inductive Request (O T : Type) where
  /-- Garbling with a random key for the labels and random row orders. -/
  | garble (key : Block) (rows : Nat → Bool)
  | garbleSeeded (seed : Bytes)
  | garbledInput (bits pairs : Bytes) (party : Nat)
  | compute (keys : Bytes)
  | verify (pairs : Bytes)
  | internalVerify (pairs : Bytes)
  | verifyTranslation (pairs : Bytes)
  | translate (output : O)
  | verifiedTranslate (output : O) (pairs : Bytes)
  | tables
  | setTables (tables : T)
  | translation
  | setTranslation (translation : Bytes)
  | inputWires
  | outputWires
  | partyWires (party : Nat)
  /-- The number of input wires of a party. -/
  | partySize (party : Nat)
  | partyCount

/-- The value that a request is answered by. -/
inductive Answer (O T : Type) where
  | done
  | keys (keys : KeyMaterial)
  | bytes (bytes : Bytes)
  | output (output : O)
  | verdict (accepted : Bool)
  /-- The keys that an audit found, if it did not refuse. -/
  | audited (outputs : Option Bytes)
  | tables (tables : T)
  | wires (wires : List Nat)
  | count (count : Nat)

namespace Session

variable {C R A : Type}

/-- The answers to some requests, one after the other. -/
def answers (respond : C → R → A × C) : C → List R → List A
  | _, [] => []
  | c, r :: rs => (respond c r).1 :: answers respond (respond c r).2 rs

/-- What some requests leave behind. -/
def after (respond : C → R → A × C) (c : C) (rs : List R) : C :=
  rs.foldl (fun c r => (respond c r).2) c

end Session

/-! ## Circuits with free Xor -/

namespace FreeXor

variable {G : Type} [Generator G]

/-- The answer to a request, and the circuit after it. There are no rows of identity tables
to be ordered. -/
def respond (c : FreeXor G) : Request Bytes Tables → Except Error (Answer Bytes Tables) × FreeXor G
  | .garble key _ => ((c.garble key).1.map .keys, (c.garble key).2)
  | .garbleSeeded seed => ((c.garbleSeeded seed).1.map .keys, (c.garbleSeeded seed).2)
  | .garbledInput bits pairs party => ((c.garbledInput bits pairs party).map .bytes, c)
  | .compute keys => ((c.compute keys).map .output, c)
  | .verify pairs => (.ok (.verdict (c.verify pairs)), c)
  | .internalVerify pairs => (.ok (.audited (c.internalVerify pairs)), c)
  | .verifyTranslation pairs => (.ok (.verdict (c.verifyTranslation pairs)), c)
  | .translate output => ((c.translate output).map .bytes, c)
  | .verifiedTranslate output pairs => ((c.verifiedTranslate output pairs).map .bytes, c)
  | .tables => (.ok (.tables c.tables), c)
  | .setTables tables =>
    match c.setTables tables with
    | .ok c => (.ok .done, c)
    | .error e => (.error e, c)
  | .translation => (.ok (.bytes c.translation), c)
  | .setTranslation translation => (.ok .done, c.setTranslation translation)
  | .inputWires => (.ok (.wires c.inputWires), c)
  | .outputWires => (.ok (.wires c.outputWires), c)
  | .partyWires party => ((c.partyWires party).map .wires, c)
  | .partySize party => ((c.partyWires party).map fun wires => .count wires.length, c)
  | .partyCount => (.ok (.count c.partyCount), c)

end FreeXor

end Garbling
