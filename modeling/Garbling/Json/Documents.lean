-- Tables, keys, circuits and blocks as JSON documents. A structure is an
-- object with a field for each part; it is also read from a list of its
-- parts in order. Fields with other names are passed over.
import Garbling.Block
import Garbling.Circuit
import Garbling.Json.Printer
import Garbling.Json.Reader
import Garbling.Tables

namespace Garbling.Json

/-- A way to write the values of a type as JSON and to read them back. -/
structure Document (α : Type) where
  encode : α → Json
  decode? : Json → Option α

namespace Document

variable {α β : Type}

/-- The text of a value. -/
def write (d : Document α) (a : α) : String := String.ofList (d.encode a).print

/-- The value that a text spells. -/
def read? (d : Document α) (s : String) : Option α := do d.decode? (← parse? s.toList)

/-! ## Numbers, lists and options -/

/-- A number below a bound. -/
def natural (bound : Nat) : Document Nat where
  encode n := .natural n
  decode?
    | .natural n => if n < bound then some n else none
    | _ => none

/-- A byte as a number. -/
def byte : Document UInt8 where
  encode b := .natural b.toNat
  decode? j := ((natural 256).decode? j).map UInt8.ofNat

/-- A number of 64 bits. -/
def word : Document Nat := natural 0x10000000000000000

/-- A list of values. -/
def list (d : Document α) : Document (List α) where
  encode as := .list (as.map d.encode)
  decode?
    | .list items => items.mapM d.decode?
    | _ => none

/-- A value or null. -/
def optional (d : Document α) : Document (Option α) where
  encode
    | none => .null
    | some a => d.encode a
  decode?
    | .null => some none
    | j => (d.decode? j).map some

/-- Bytes as a list of numbers. -/
def bytes : Document Bytes := list byte

/-- The same documents for the values of another type. -/
def through (d : Document α) (toPart : β → α) (ofPart : α → Option β) : Document β where
  encode b := d.encode (toPart b)
  decode? j := (d.decode? j).bind ofPart

/-! ## Fields -/

/-- The value of a field, if there is one; a repeated field is refused. -/
def field? (fields : List (List UInt16 × Json)) (name : String) : Option (Option Json) :=
  match fields.filter (·.1 == unitsOf name) with
  | [] => some none
  | [(_, value)] => some (some value)
  | _ => none

/-- The parts with the given names. All names in an object have to be well formed, and a
list has to hold exactly the parts. -/
def parts? (names : List String) : Json → Option (List (Option Json))
  | .object fields =>
    if fields.all fun (name, _) => wellFormed name then names.mapM (field? fields) else none
  | .list items => if items.length = names.length then some (items.map some) else none
  | _ => none

/-- A part that has to be there. -/
def required? (d : Document α) (part : Option Json) : Option α := part.bind d.decode?

/-- An optional part, which may be left out of an object. -/
def omissible? (d : Document α) : Option Json → Option (Option α)
  | none => some none
  | some j => (optional d).decode? j

/-- An object with the given fields, in order. -/
def objectOf (fields : List (String × Json)) : Json :=
  .object (fields.map fun (name, value) => (unitsOf name, value))

/-! ## The documents -/

/-- A block as a list of its sixteen bytes. -/
def block : Document Block :=
  bytes.through Block.toBytes fun bs => (Block.decode bs).toOption

/-- The slots of tables. -/
def tables : Document Tables :=
  (list (optional bytes)).through Tables.slots fun slots => some ⟨slots⟩

/-- The inner tables and those of the two sides. -/
def layeredTables : Document LayeredTables where
  encode t :=
    objectOf [("inner", tables.encode t.inner), ("input", (optional tables).encode t.input),
      ("output", (optional tables).encode t.output)]
  decode? j := do
    match ← parts? ["inner", "input", "output"] j with
    | [inner, input, output] =>
      return {
        inner := ← required? tables inner
        input := ← omissible? tables input
        output := ← omissible? tables output }
    | _ => none

/-- The keys and the translation table that garbling reports. -/
def keyMaterial : Document KeyMaterial where
  encode k :=
    objectOf [("all_input_keys", bytes.encode k.inputKeys),
      ("all_output_keys", bytes.encode k.outputKeys),
      ("translation_table", bytes.encode k.translation)]
  decode? j := do
    match ← parts? ["all_input_keys", "all_output_keys", "translation_table"] j with
    | [inputKeys, outputKeys, translation] =>
      return {
        inputKeys := ← required? bytes inputKeys
        outputKeys := ← required? bytes outputKeys
        translation := ← required? bytes translation }
    | _ => none

/-- The two operands of a gate. -/
def operands : Document (Nat × Nat) where
  encode := fun (x, y) => (list word).encode [x, y]
  decode? j := do
    match ← (list word).decode? j with
    | [x, y] => some (x, y)
    | _ => none

/-- A gate as an object with one field, whose name is the kind of the gate. -/
def gate : Document (Gate Nat) where
  encode
    | .xor x y => objectOf [("Xor", operands.encode (x, y))]
    | .and x y => objectOf [("And", operands.encode (x, y))]
    | .or x y => objectOf [("Or", operands.encode (x, y))]
    | .not x => objectOf [("Not", word.encode x)]
  decode?
    | .object [(kind, value)] =>
      if kind = unitsOf "Xor" then (operands.decode? value).map fun (x, y) => .xor x y
      else if kind = unitsOf "And" then (operands.decode? value).map fun (x, y) => .and x y
      else if kind = unitsOf "Or" then (operands.decode? value).map fun (x, y) => .or x y
      else if kind = unitsOf "Not" then (word.decode? value).map .not
      else none
    | _ => none

/-- The inputs, the gates and the outputs of a circuit. -/
def circuit : Document Circuit where
  encode c :=
    objectOf [("input_gates", (list word).encode c.inputs), ("gates", (list gate).encode c.gates),
      ("output_gates", (list word).encode c.outputs)]
  decode? j := do
    match ← parts? ["input_gates", "gates", "output_gates"] j with
    | [inputs, gates, outputs] =>
      return {
        inputs := ← required? (list word) inputs
        gates := ← required? (list gate) gates
        outputs := ← required? (list word) outputs }
    | _ => none

end Document

end Garbling.Json
