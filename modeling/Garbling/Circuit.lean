-- Boolean circuits with inputs from several parties. The input wires
-- come first, party by party; then every gate adds one wire, in order,
-- and may only read wires that are there before it.

namespace Garbling

/-! ## Gates -/

/-- A gate whose operands are of the type `ω`: wires in a circuit, values in a run. -/
inductive Gate (ω : Type) where
  | xor (x y : ω)
  | and (x y : ω)
  | or (x y : ω)
  | not (x : ω)
deriving DecidableEq, Repr

namespace Gate

variable {ω α : Type}

/-- The operands, in order. -/
def operands : Gate ω → List ω
  | xor x y | and x y | or x y => [x, y]
  | not x => [x]

/-- The gate on the values of its operands, if all of them have one. -/
def resolve? (value : ω → Option α) : Gate ω → Option (Gate α)
  | xor x y => return xor (← value x) (← value y)
  | and x y => return and (← value x) (← value y)
  | or x y => return or (← value x) (← value y)
  | not x => return not (← value x)

/-- The bit that a gate gives for the bits of its operands. -/
def bit : Gate Bool → Bool
  | xor x y => x ^^ y
  | and x y => x && y
  | or x y => x || y
  | not x => !x

/-- Garbling the gate takes a table: And and Or do, Xor and Not are free. -/
def needsTable : Gate ω → Bool
  | and _ _ | or _ _ => true
  | xor _ _ | not _ => false

end Gate

/-! ## Circuits -/

/-- A circuit. -/
structure Circuit where
  /-- The number of input wires of each party. -/
  inputs : List Nat
  gates : List (Gate Nat)
  /-- The wires whose values are the output. -/
  outputs : List Nat
deriving DecidableEq, Repr

/-- What is wrong with a circuit. -/
inductive CircuitError where
  | noParties
  /-- A gate reads a wire that is not there before it. -/
  | undefinedWire (gate wire : Nat)
  /-- An output is a wire that is not there at all. -/
  | missingOutput (wire : Nat)
deriving DecidableEq, Repr

def CircuitError.message : CircuitError → String
  | .noParties => "the circuit has no input parties"
  | .undefinedWire gate wire => s!"gate {gate} refers to wire {wire}, which is not yet defined"
  | .missingOutput wire => s!"output wire {wire} does not exist"

namespace Circuit

/-- The number of input wires of all parties. -/
def inputCount (c : Circuit) : Nat := c.inputs.foldr (· + ·) 0

/-- The number of wires. -/
def wireCount (c : Circuit) : Nat := c.inputCount + c.gates.length

/-- The wire that a gate adds. -/
def gateWire (c : Circuit) (gate : Nat) : Nat := c.inputCount + gate

/-- Consecutive runs of wires of the given lengths, the first one from `next` on. -/
def wireRuns : Nat → List Nat → List (List Nat)
  | _, [] => []
  | next, n :: ns => List.range' next n :: wireRuns (next + n) ns

/-- The input wires of each party. -/
def partyWires (c : Circuit) : List (List Nat) := wireRuns 0 c.inputs

/-- The first gate that reads its own wire or a later one, with the first such wire. The
gates listed are those from a number on, in a circuit with `inputs` input wires. -/
def firstUndefined (inputs : Nat) : Nat → List (Gate Nat) → Option (Nat × Nat)
  | _, [] => none
  | number, gate :: gates =>
    match gate.operands.find? (inputs + number ≤ ·) with
    | some wire => some (number, wire)
    | none => firstUndefined inputs (number + 1) gates

/-- Checks that there is a party, and that every wire is there before it is read. -/
def validate (c : Circuit) : Except CircuitError Unit :=
  if c.inputs.isEmpty then
    .error .noParties
  else
    match firstUndefined c.inputCount 0 c.gates with
    | some (gate, wire) => .error (.undefinedWire gate wire)
    | none =>
      match c.outputs.find? (c.wireCount ≤ ·) with
      | some wire => .error (.missingOutput wire)
      | none => .ok ()

/-- A circuit that passes the check. -/
def Valid (c : Circuit) : Prop := c.validate = .ok ()

instance (c : Circuit) : Decidable c.Valid :=
  match h : c.validate with
  | .ok () => isTrue h
  | .error _ => isFalse (by simp [Valid, h])

/-! ## Runs -/

variable {α ε : Type}

/-- The values of the given wires, and of one more wire for each gate: `step` gives it
from the number of the gate and the values that it reads. -/
def propagateFrom (undefined : ε) (step : Nat → Gate α → Except ε α) :
    Nat → List (Gate Nat) → Array α → Except ε (Array α)
  | _, [], values => .ok values
  | number, gate :: gates, values =>
    match gate.resolve? (values[·]?) with
    | none => .error undefined
    | some operands =>
      match step number operands with
      | .error e => .error e
      | .ok value => propagateFrom undefined step (number + 1) gates (values.push value)

/-- The values of all wires from those of the input wires. -/
def propagate (c : Circuit) (undefined : ε) (step : Nat → Gate α → Except ε α)
    (inputs : List α) : Except ε (Array α) :=
  propagateFrom undefined step 0 c.gates inputs.toArray

/-- The values of the output wires. -/
def readOutputs? (c : Circuit) (values : Array α) : Option (List α) := c.outputs.mapM (values[·]?)

/-- The output bits for the input bits of each party, unless a gate or an output reads a
wire that is not there. -/
def eval (c : Circuit) (inputs : List (List Bool)) : Option (List Bool) := do
  let values ← (c.propagate () (fun _ gate => .ok gate.bit) inputs.flatten).toOption
  c.readOutputs? values

end Circuit

end Garbling
