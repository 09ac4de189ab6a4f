import Toolchain.Bytecode.FileError
import Toolchain.Bytecode.Record
import Toolchain.Cbor.Parser
import Toolchain.Octets

/-!
# Code objects as CBOR

The interchange form of a code object is a map from small integers to its parts. Parts that are
empty are left out, but for the instructions and the line table, for which it is written whether
they are there. A part that is missing or null is empty when it is read.

## Main definitions

* `Interchange.ofRecord`: the value of a code object as it is held
* `Interchange.encodeRecord`: the interchange form of a valid code object
* `Interchange.toRecord?`: the code object of a value
* `Interchange.decodeRecord`: the code object of an interchange form
* `Interchange.ofCode`, `Interchange.encode`, `Interchange.decode`: the same for what code objects
  mean
-/

namespace Toolchain

namespace Interchange

/-- The version of the form. -/
def version : Nat := 1

/-! ## Writing -/

/-- An entry of a map. -/
def entry (key : Nat) (value : Cbor) : Cbor × Cbor := (.unsigned key, value)

/-- An entry that is left out if its text is empty. -/
def textEntry (key : Nat) (t : Text) : List (Cbor × Cbor) :=
  if t.isEmpty then [] else [entry key (.ofText t)]

/-- An entry that is left out if its list is missing or empty. -/
def listEntry {α : Type} (key : Nat) (value : α → Cbor) (items : Option (List α)) :
    List (Cbor × Cbor) :=
  if (items.getD []).isEmpty then [] else [entry key (.array ((items.getD []).map value))]

/-- The value of what may be missing. -/
def orNull {α : Type} (value : α → Cbor) : Option α → Cbor
  | none => .null
  | some a => value a

/-- Whether a number is zero, of either sign. -/
def isZero (x : Binary64) : Bool := x.bits = 0 || x.bits = 0x8000000000000000

/-- The parts of a code object, given the values of its constants. -/
def partsOf (r : RecordOf Cbor) : List (Cbor × Cbor) :=
  [entry 1 (.unsigned version), entry 2 (.ofText r.name), entry 3 (.ofText r.filename),
    entry 4 (.unsigned r.kind.toNat), entry 5 (.ofInt r.firstLine)] ++
  listEntry 6 Cbor.ofText r.params ++ textEntry 7 r.vararg ++ textEntry 8 r.kwarg ++
  [entry 9 (orNull Cbor.bytes r.instructions),
    entry 10 (orNull (fun lines => .array (lines.map Cbor.ofInt)) r.lines)] ++
  listEntry 11 id r.constants

/-- The parts of a constant, given the value of its code object. The fields that the kind of the
constant does not use are written as well, but for the code object. -/
def constantParts (k : ConstantOf Cbor) : List (Cbor × Cbor) :=
  entry 1 (.unsigned k.tag.toNat) :: (textEntry 2 k.string ++
    (if k.int = 0 then [] else [entry 3 (.ofInt k.int.toInt)]) ++
    (if isZero k.float then [] else [entry 4 (.float k.float)]) ++
    (k.body?.map (entry 5)).toList)

/-- The value of a code object as it is held. -/
def ofRecord : CodeRecord → Cbor :=
  CodeRecord.fold (fun r => .map (partsOf r)) fun k => .map (constantParts k)

/-- The interchange form of a code object as it is held, if it is valid. -/
def encodeRecord (r : CodeRecord) : Except FileError (List UInt8) :=
  match r.code.verify with
  | .error e => .error (.refused e)
  | .ok _ => .ok (ofRecord r).encode

/-- The value of a code object. -/
def ofCode (c : Code) : Cbor := ofRecord c.record

/-- The interchange form of a code object, if it is valid. -/
def encode (c : Code) : Except FileError (List UInt8) :=
  match c.verify with
  | .error e => .error (.refused e)
  | .ok _ => .ok (ofCode c).encode

/-! ## Reading -/

/-- Whether a value stands for nothing. -/
def isNull : Cbor → Bool
  | .simple 22 | .simple 23 => true
  | _ => false

/-- A value without the tags around it, if these may stand there. A tag for a large number, which
has to hold octets, is kept. -/
def untagged? : Cbor → Option Cbor
  | .tag 0 content =>
    match content with
    | .text chunks => some (.text chunks)
    | _ => none
  | .tag 1 content =>
    match content with
    | .unsigned n => some (.unsigned n)
    | .negative n => some (.negative n)
    | .float x => some (.float x)
    | _ => none
  | .tag 2 content =>
    match content with
    | .bytes b => some (.tag 2 (.bytes b))
    | _ => none
  | .tag 3 content =>
    match content with
    | .bytes b => some (.tag 3 (.bytes b))
    | _ => none
  | .tag _ content => untagged? content
  | v => some v

/-- The integer of a value. A simple value without a meaning counts as its number. -/
def integer? (v : Cbor) : Option Int := do
  match ← untagged? v with
  | .unsigned n => return n
  | .negative n => return -1 - n
  | .simple 20 | .simple 21 => none
  | .simple 22 | .simple 23 => return 0
  | .simple n => return n
  | .tag 2 (.bytes b) => return ofBigEndian b
  | .tag 3 (.bytes b) => return -1 - ofBigEndian b
  | _ => none

/-- The integer of a value, if it has at most sixty-four bits. -/
def int64? (v : Cbor) : Option Int := do
  let n ← integer? v
  if isInt64 n then return n else none

/-- The number of a value, if it is one octet. -/
def octet? (v : Cbor) : Option UInt8 := do
  let n ← integer? v
  if 0 ≤ n ∧ n < 256 then return UInt8.ofNat n.toNat else none

/-- The floating point number of a value; integers are rounded. -/
def number? (v : Cbor) : Option Binary64 := do
  match ← untagged? v with
  | .float x => return x
  | v =>
    let n ← integer? v
    if -(twoPow 63 : Int) ≤ n ∧ n < (twoPow 64 : Int) then return Binary64.ofInt n else none

/-- The text of a value. -/
def text? (v : Cbor) : Option Text := do
  match ← untagged? v with
  | .text chunks => if chunks.all Text.isValid then return chunks.flatten else none
  | v => if isNull v then return [] else none

/-- The list of a value, whose items are read by `item`. -/
def list? {α : Type} (item : Cbor → Option α) (v : Cbor) : Option (List α) := do
  match ← untagged? v with
  | .array items => items.mapM item
  | v => if isNull v then return [] else none

/-- What `read` makes of a value, which may also stand for nothing. -/
def optional? {α : Type} (read : Cbor → Option α) (v : Cbor) : Option (Option α) := do
  if isNull (← untagged? v) then return none else return some (← read v)

/-- The octets of a value: a string of octets, or a list of numbers. -/
def octets? (v : Cbor) : Option (List UInt8) := do
  match ← untagged? v with
  | .bytes b | .tag _ (.bytes b) => return b
  | v => list? octet? v

/-- Whether a key may stand in a map: an integer or a text, where a negative integer has at most
sixty-four bits. -/
def isKey : Cbor → Bool
  | .unsigned _ => true
  | .negative n => n < twoPow 63
  | .text chunks => chunks.all Text.isValid
  | _ => false

/-- Whether a key is that of a part. It may be spelled as a text. -/
def isKeyOf (part : Nat) : Cbor → Bool
  | .unsigned n => n = part
  | .text chunks => chunks.flatten = Text.ofNat part
  | _ => false

/-- The parts of a value that is a map, or stands for nothing. -/
def parts? (v : Cbor) : Option (List (Cbor × Cbor)) := do
  match ← untagged? v with
  | .map entries => if entries.all fun e => isKey e.1 then return entries else none
  | v => if isNull v then return [] else none

/-- A part, the first one if there are several; null if there is none. -/
def part (key : Nat) (parts : List (Cbor × Cbor)) : Cbor :=
  match parts.find? fun e => isKeyOf key e.1 with
  | some (_, v) => v
  | none => .null

/-- The constant of a value whose parts were read; it may be one that does not exist. A code object
counts only in a constant that uses it. -/
def checkedConstant (k : ConstantOf (Except FileError CodeRecord)) :
    Except FileError ConstantRecord :=
  match k.tag.toNat with
  | 0 | 1 | 2 | 3 => .ok ⟨{ k with code := none }⟩
  | 4 => match k.code with
    | none => .error .noBody
    | some r => r.map fun r => ⟨{ k with code := some r }⟩
  | n => .error (.constantTag n)

/-- The constant of a value, given how the code object of a value is read. The value has to be
well-formed; then the constant may still be one that does not exist. -/
def toConstant? (nested : Cbor → Option (Except FileError CodeRecord)) (v : Cbor) :
    Option (Except FileError ConstantRecord) := do
  let parts ← parts? v
  let tag ← octet? (part 1 parts)
  let string ← text? (part 2 parts)
  let int ← int64? (part 3 parts)
  let float ← number? (part 4 parts)
  let code ← if isNull (part 5 parts) then some none else (nested (part 5 parts)).map some
  return checkedConstant { tag, string, int := Int64.ofInt int, float, code }

/-- The code object of a value whose parts were read; it may be of a version or kind that does not
exist. The list of its constants is put together one by one. -/
def checkedCode (number : UInt8) (r : RecordOf (Except FileError ConstantRecord)) :
    Except FileError CodeRecord := do
  if number.toNat ≠ version then throw (.interchangeVersion number.toNat)
  if (CodeKind.ofNumber? r.kind).isNone then throw (.codeKind r.kind.toNat)
  let constants ← r.pool.mapM id
  return { r with constants := heldList constants }

/-- The code object of a value in which fewer than `levels` others are nested in each other. The
value has to be well-formed; then the code object may still be of a version or kind that does not
exist. -/
def toRecord? : (levels : Nat) → Cbor → Option (Except FileError CodeRecord)
  | 0, _ => none
  | levels + 1, v => do
    let parts ← parts? v
    let number ← octet? (part 1 parts)
    let name ← text? (part 2 parts)
    let filename ← text? (part 3 parts)
    let kind ← octet? (part 4 parts)
    let firstLine ← int64? (part 5 parts)
    let params ← optional? (list? text?) (part 6 parts)
    let vararg ← text? (part 7 parts)
    let kwarg ← text? (part 8 parts)
    let instructions ← optional? octets? (part 9 parts)
    let lines ← optional? (list? int64?) (part 10 parts)
    let constants ← list? (toConstant? (toRecord? levels)) (part 11 parts)
    return checkedCode number
      { name, filename, kind, firstLine, params, vararg, kwarg, instructions, lines,
        constants := some constants }

/-- The code object of an interchange form as it is held, if the form is sound and the code
valid. -/
def decodeRecord (input : List UInt8) : Except FileError CodeRecord := do
  let some outcome := (Cbor.parse? input).bind (toRecord? Cbor.maxLevels) | throw .undecodable
  let r ← outcome
  match r.code.verify with
  | .error e => throw (.rejected e)
  | .ok _ => return r

/-- The code object of an interchange form, if the form is sound and the code valid. -/
def decode (input : List UInt8) : Except FileError Code := (decodeRecord input).map CodeRecord.code

end Interchange

end Toolchain
