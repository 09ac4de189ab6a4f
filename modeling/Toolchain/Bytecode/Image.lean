import Toolchain.Blake2b
import Toolchain.Bytecode.FileError
import Toolchain.Octets

/-!
# The compiled file

A compiled file is a header and a payload. The header tells the format, the version, some flags, the
length of the payload and its checksum. The payload is a pool of strings, each of which stands there
once, followed by the code object, in which a string is the index of its place in the pool.

Numbers have fixed widths, the most significant octet first.

## Main definitions

* `Code.strings`, `Image.pool`: the strings of a code object
* `Image.write`: the file of a code object, whatever its code
* `Image.encode`: the file of a valid code object
* `Image.decode`: the code object of a file
-/

namespace Toolchain

/-- A text as a list of at most one: the empty text stands for none. -/
def optionalText (t : Text) : List Text := if t.isEmpty then [] else [t]

mutual

/-- The strings of a code object, in the order in which the file needs them. -/
def Code.strings : Code → List Text
  | ⟨name, filename, _, _, params, vararg, kwarg, _, _, constants⟩ =>
    name :: filename :: (params ++ optionalText vararg ++ optionalText kwarg ++
      Code.stringsOf constants)

/-- The strings of some constants. -/
def Code.stringsOf : List Constant → List Text
  | [] => []
  | .name t :: rest | .string t :: rest => t :: Code.stringsOf rest
  | .code c :: rest => Code.strings c ++ Code.stringsOf rest
  | _ :: rest => Code.stringsOf rest

end

namespace Image

/-- The first four octets of every file. -/
def magic : List UInt8 := Text.ofString "PYRC"

/-- The version of the format; files of another major version are not read. -/
def majorVersion : UInt8 := 1

/-- The minor version of the format. -/
def minorVersion : UInt8 := 0

/-- The number of octets of the header. -/
def headerSize : Nat := 44

/-- The index that stands for no string. -/
def noString : Nat := 0xFFFFFFFF

/-- How many levels of code objects below the outermost one a file may have. -/
def maxNesting : Nat := 256

/-- Whether the flags say that the file has no line tables. -/
def withoutLines (flags : UInt16) : Bool := flags.toNat % 2 = 1

/-! ## Writing -/

/-- The pool of a code object: its strings, each at its first place. -/
def pool (c : Code) : List Text := c.strings.eraseDups

/-- The octets of a pool. -/
def writePool (pool : List Text) : List UInt8 :=
  bigEndian 4 pool.length ++ pool.flatMap fun s => bigEndian 4 s.length ++ s

/-- The octets of the index of a string. -/
def writeString (pool : List Text) (s : Text) : List UInt8 := bigEndian 4 (pool.idxOf s)

/-- The octets of the index of a string that may be missing. -/
def writeOptional (pool : List Text) (s : Text) : List UInt8 :=
  if s.isEmpty then bigEndian 4 noString else writeString pool s

/-- The octets of an integer, of which the lowest thirty-two bits are kept. -/
def writeLine (n : Int) : List UInt8 := bigEndian 4 (n.emod (twoPow 32)).toNat

mutual

/-- The octets of a code object. -/
def writeCode (flags : UInt16) (pool : List Text) : Code → List UInt8
  | ⟨name, filename, kind, firstLine, params, vararg, kwarg, instructions, lineTable, constants⟩ =>
    writeString pool name ++ writeString pool filename ++ [kind.number] ++ writeLine firstLine ++
      bigEndian 2 params.length ++ params.flatMap (writeString pool) ++
      writeOptional pool vararg ++ writeOptional pool kwarg ++
      bigEndian 4 (instructions.length / 2) ++ instructions ++
      (if withoutLines flags then [] else (lineTable.getD []).flatMap writeLine) ++
      bigEndian 4 constants.length ++ writeConstants flags pool constants

/-- The octets of constants. -/
def writeConstants (flags : UInt16) (pool : List Text) : List Constant → List UInt8
  | [] => []
  | .name t :: rest => 0 :: (writeString pool t ++ writeConstants flags pool rest)
  | .string t :: rest => 1 :: (writeString pool t ++ writeConstants flags pool rest)
  | .int n :: rest => 2 :: (bigEndian 8 n.toUInt64.toNat ++ writeConstants flags pool rest)
  | .float x :: rest => 3 :: (bigEndian 8 x.bits.toNat ++ writeConstants flags pool rest)
  | .code c :: rest => 4 :: (writeCode flags pool c ++ writeConstants flags pool rest)
  | .noCode :: rest => 4 :: writeConstants flags pool rest
  | .unknown tag :: rest => tag :: writeConstants flags pool rest

end

/-- The octets of the payload of a file. -/
def payload (flags : UInt16) (c : Code) : List UInt8 :=
  writePool (pool c) ++ writeCode flags (pool c) c

/-- The octets of the header of a file with a payload. -/
def header (flags : UInt16) (payload : List UInt8) : List UInt8 :=
  magic ++ [majorVersion, minorVersion] ++ bigEndian 2 flags.toNat ++
    bigEndian 4 payload.length ++ Blake2b.digest payload

/-- The file of a code object. -/
def write (flags : UInt16) (c : Code) : List UInt8 :=
  let payload := payload flags c
  header flags payload ++ payload

/-- The file of a code object, if it is valid. -/
def encode (flags : UInt16) (c : Code) : Except FileError (List UInt8) :=
  match c.verify with
  | .error e => .error (.refused e)
  | .ok _ => .ok (write flags c)

/-! ## Reading -/

/-- A step that reads from the octets that are left. -/
abbrev Decode := StateT (List UInt8) (Except FileError)

/-- Reads some octets. -/
def takeBytes (n : Nat) : Decode (List UInt8) := fun rest =>
  let taken := rest.take n
  if taken.length = n then .ok (taken, rest.drop n) else .error .unexpectedEnd

/-- Reads a number of some octets. -/
def readNat (width : Nat) : Decode Nat := do
  return ofBigEndian (← takeBytes width)

/-- Runs a step some times, and gives all that was read. -/
def readMany {α : Type} (step : Decode α) : Nat → Decode (List α)
  | 0 => pure []
  | n + 1 => do
    let a ← step
    return a :: (← readMany step n)

/-- Reads one string of the pool. -/
def readPooled : Decode Text := do
  let length ← readNat 4
  if (← get).length < length then throw .stringPool
  takeBytes length

/-- Reads the pool. A string takes some octets, so there cannot be more strings than octets. -/
def readPool : Decode (Array Text) := do
  let count ← readNat 4
  if (← get).length < count then throw .stringPool
  return (← readMany readPooled count).toArray

/-- The string at an index of the pool. -/
def lookup (pool : Array Text) (index : Nat) : Decode Text :=
  match pool[index]? with
  | some s => pure s
  | none => throw (.stringIndex index)

/-- Reads a string. -/
def readString (pool : Array Text) : Decode Text := do
  lookup pool (← readNat 4)

/-- Reads a string that may be missing. -/
def readOptional (pool : Array Text) : Decode Text := do
  let index ← readNat 4
  if index = noString then return []
  lookup pool index

/-- Reads a line number. -/
def readLine : Decode Int := do
  return ((← readNat 4 : Nat) : Int)

/-- Reads a constant, with a step that reads a code object. -/
def readConstant (pool : Array Text) (nested : Decode Code) : Decode Constant := do
  let tag ← readNat 1
  match tag with
  | 0 => return .name (← readString pool)
  | 1 => return .string (← readString pool)
  | 2 => return .int (UInt64.ofNat (← readNat 8)).toInt64
  | 3 => return .float ⟨UInt64.ofNat (← readNat 8)⟩
  | 4 => return .code (← nested)
  | _ => throw (.constantTag tag)

/-- Reads a code object in which at most `levels - 1` levels of others are nested. -/
def readCode (withoutLines : Bool) (pool : Array Text) : (levels : Nat) → Decode Code
  | 0 => throw .nesting
  | levels + 1 => do
    let name ← readString pool
    let filename ← readString pool
    let number ← readNat 1
    let some kind := CodeKind.ofNumber? (UInt8.ofNat number) | throw (.codeKind number)
    let firstLine ← readLine
    let params ← readMany (readString pool) (← readNat 2)
    let vararg ← readOptional pool
    let kwarg ← readOptional pool
    let count ← readNat 4
    if (← get).length / 2 < count then throw .instructions
    let instructions ← takeBytes (count * 2)
    let lines ← if withoutLines then pure (List.replicate count 0) else readMany readLine count
    let size ← readNat 4
    if (← get).length < size then throw .constantPool
    let constants ← readMany (readConstant pool (readCode withoutLines pool levels)) size
    return { name, filename, kind, firstLine, params, vararg, kwarg, instructions,
             lineTable := some lines, constants }

/-- Checks the format and the version that a header tells. -/
def checkHeader (file : List UInt8) : Except FileError Unit := do
  if file.length < headerSize then throw .tooSmall
  if file.take 4 ≠ magic then throw .badMagic
  let major := file.getD 4 0
  if major ≠ majorVersion then throw (.version major.toNat (file.getD 5 0).toNat)

/-- Reads a whole payload. -/
def readPayload (withoutLines : Bool) (payload : List UInt8) : Except FileError Code := do
  let (pool, rest) ← readPool payload
  let (code, rest) ← readCode withoutLines pool (maxNesting + 1) rest
  if rest.isEmpty then return code else throw (.trailing rest.length)

/-- The code object of a file, if the file is sound and the code valid. -/
def decode (file : List UInt8) : Except FileError Code := do
  checkHeader file
  let flags := UInt16.ofNat (ofBigEndian ((file.drop 6).take 2))
  let length := ofBigEndian ((file.drop 8).take 4)
  let payload := file.drop headerSize
  if length ≠ payload.length then throw (.payloadLength length)
  if Blake2b.digest payload ≠ (file.drop 12).take 32 then throw .checksum
  let code ← readPayload (withoutLines flags) payload
  match code.verify with
  | .error e => throw (.rejected e)
  | .ok _ => return code

end Image

end Toolchain
