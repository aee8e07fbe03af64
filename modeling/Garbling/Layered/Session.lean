-- Sessions with a layered circuit. It answers what every garbled circuit
-- can be asked, and the requests about pinned keys and digests that only
-- it has.
import Garbling.Layered.Audit
import Garbling.Layered.Commitment
import Garbling.Layered.Evaluation
import Garbling.Session

namespace Garbling.Layered

variable {P G : Type} [Generator P] [Generator G]

/-- The answer to a request that every garbled circuit can be asked, and the circuit after it. -/
def respond (c : Layered P G) : Garbling.Request LayeredOutput LayeredTables →
    Except Error (Garbling.Answer LayeredOutput LayeredTables) × Layered P G
  | .garble key rows => ((c.garble key rows).1.map .keys, (c.garble key rows).2)
  | .garbleSeeded seed => ((c.garbleSeeded seed).1.map .keys, (c.garbleSeeded seed).2)
  | .garbledInput bits pairs party => ((c.garbledInput bits pairs party).map .bytes, c)
  | .compute keys => ((c.compute keys).map .output, c)
  | .verify pairs => (.ok (.verdict (c.verify pairs)), c)
  | .internalVerify pairs => (.ok (.audited (c.internalVerify pairs)), c)
  | .verifyTranslation pairs => (.ok (.verdict (c.verifyTranslation pairs)), c)
  | .translate output => ((c.translate output).map .bytes, c)
  | .verifiedTranslate output pairs => ((c.verifiedTranslate output pairs).map .bytes, c)
  | .tables => (.ok (.tables c.tables), c)
  | .setTables tables => ((c.setTables tables).1.map fun _ => .done, (c.setTables tables).2)
  | .translation => (.ok (.bytes c.inner.translation), c)
  | .setTranslation translation => (.ok .done, c.setTranslation translation)
  | .inputWires => (.ok (.wires c.inner.inputWires), c)
  | .outputWires => (.ok (.wires c.inner.outputWires), c)
  | .partyWires party => ((c.inner.partyWires party).map .wires, c)
  | .partySize party => ((c.inner.partyWires party).map fun wires => .count wires.length, c)
  | .partyCount => (.ok (.count c.inner.partyCount), c)

/-- A request to a layered circuit. -/
inductive Request where
  | common (request : Garbling.Request LayeredOutput LayeredTables)
  | setInputKeys (keys : Bytes)
  | setOutputKeys (keys : Bytes)
  | inputKeySize
  | outputKeySize
  | verifyWithOutputs (pairs expected : Bytes)
  | hashedCircuit (d : Digest)
  | verifyHashedCircuit (d : Digest) (digest : Bytes)
  | verifyHashed (seed : Bytes) (inputKeys outputKeys : Option Bytes) (d : Digest) (digest : Bytes)

/-- The value that a request to a layered circuit is answered by. -/
inductive Answer where
  | common (answer : Garbling.Answer LayeredOutput LayeredTables)
  /-- A digest, and the hash object after it. -/
  | digest (digest : Bytes) (d : Digest)

/-- The answer to pinning keys, and the circuit after it. -/
def respondPinning (c : Layered P G) :
    Except Error (Layered P G) → Except Error Answer × Layered P G
  | .ok c => (.ok (.common .done), c)
  | .error e => (.error e, c)

/-- The answer to any request, and the circuit after it. -/
def respondAny (c : Layered P G) : Request → Except Error Answer × Layered P G
  | .common request => ((c.respond request).1.map .common, (c.respond request).2)
  | .setInputKeys keys => c.respondPinning (c.setInputKeys keys)
  | .setOutputKeys keys => c.respondPinning (c.setOutputKeys keys)
  | .inputKeySize => (.ok (.common (.count c.inputKeySize)), c)
  | .outputKeySize => (.ok (.common (.count c.outputKeySize)), c)
  | .verifyWithOutputs pairs expected =>
    (.ok (.common (.verdict (c.verifyWithOutputs pairs expected))), c)
  | .hashedCircuit d => (.ok (.digest (c.hashedCircuit d).1 (c.hashedCircuit d).2), c)
  | .verifyHashedCircuit d digest => (.ok (.common (.verdict (c.verifyHashedCircuit d digest))), c)
  | .verifyHashed seed inputKeys outputKeys d digest =>
    let (answer, c) := c.verifyHashed seed inputKeys outputKeys d digest
    (answer.map fun accepted => .common (.verdict accepted), c)

end Garbling.Layered
