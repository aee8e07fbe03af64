-- Committing to a garbled circuit by a digest, and checking a seed
-- against such a digest.
import Garbling.Digest
import Garbling.Layered.Garbling

namespace Garbling.Layered

variable {P G : Type}

/-- What the digest is taken of: the tables of the inner circuit that are there, in gate
order, and then its translation table. -/
def committedBytes (c : Layered P G) : Bytes :=
  c.inner.tables.present.flatten ++ c.inner.translation

/-- Absorbs the circuit and gives the digest, and the hash object as it is after that. -/
def hashedCircuit (c : Layered P G) (d : Digest) : Bytes × Digest :=
  (d.update c.committedBytes).finalize

/-- The circuit has this digest. -/
def verifyHashedCircuit (c : Layered P G) (d : Digest) (digest : Bytes) : Bool :=
  (c.hashedCircuit d).1 == digest

/-- Pins keys, if some are given, and garbles from the seed. -/
def garblePinned [Generator P] [Generator G] (c : Layered P G) (seed : Bytes)
    (inputKeys outputKeys : Option Bytes) : Except Error KeyMaterial × Layered P G :=
  match inputKeys.elim (.ok c) c.setInputKeys with
  | .error e => (.error e, c)
  | .ok c =>
    match outputKeys.elim (.ok c) c.setOutputKeys with
    | .error e => (.error e, c)
    | .ok c => c.garbleSeeded seed

/-- Compares the digest of the circuit with the given one. A circuit that is not garbled
yet is garbled from the seed first, with the given keys pinned. -/
def verifyHashed [Generator P] [Generator G] (c : Layered P G) (seed : Bytes)
    (inputKeys outputKeys : Option Bytes) (d : Digest) (digest : Bytes) :
    Except Error Bool × Layered P G :=
  if c.garbled then
    (.ok (c.verifyHashedCircuit d digest), c)
  else
    match c.garblePinned seed inputKeys outputKeys with
    | (.error e, c) => (.error e, c)
    | (.ok _, c) => (.ok (c.verifyHashedCircuit d digest), c)

end Garbling.Layered
