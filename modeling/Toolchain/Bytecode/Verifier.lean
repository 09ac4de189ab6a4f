import Toolchain.Bytecode.Code
import Toolchain.Message.Catalogue

/-!
# Verification of code objects

A code object is checked in two steps. Each instruction has to be well encoded: an operation that
exists, an operand in its range, a target inside the code, a constant of the right kind. Then the
depth of the stack is followed along every path from the first instruction: each instruction has to
find the values it takes, each path has to reach an instruction with the same depth, and no path may
leave the code.

## Main definitions

* `VerifyError`: what is wrong with a code object, and at which instruction
* `Instr.stackNeed`, `Instr.stackAfter`: how many values an instruction takes and leaves
* `Instr.flows`: where an instruction leads, and with which depth
* `Depths`, `Depths.walk`: the walk along all paths
* `Code.checkAlone`, `Code.verify`: one code object, and all nested ones
-/

namespace Toolchain

/-- What is wrong with a code object. -/
inductive VerifyCause where
  | oddLength (bytes : Nat)
  | lineTable (entries instructions : Nat)
  | unpatched (position : Nat) (name : Text)
  | invalidOpcode (number : Nat)
  | target (op : Opcode) (operand : Nat)
  | constantIndex (operand : Nat)
  | nameIndex (operand : Nat)
  | notAName (op : Opcode) (operand : Nat)
  | buildKind (kind : Nat)
  | sliceCount (count : Nat)
  | dupCount (operand : Nat)
  | rotCount (operand : Nat)
  | noCodeObject (op : Opcode)
  | notAfterCode (op : Opcode)
  | operandRange (op : Opcode) (operand : Nat)
  | unknownTag (index : Nat) (tag : UInt8)
  | nilCode (index : Nat)
  | underflow (op : Opcode) (needs has : Nat)
  | fallsOff
  | inconsistent (before now : Nat)
  deriving DecidableEq, Repr

namespace VerifyCause

/-- What is wrong, as a message. -/
def message : VerifyCause → Message
  | oddLength bytes => .plain ("odd instruction stream length " ++ (bytes : Text))
  | lineTable entries instructions =>
    .plain ("line table has " ++ (entries : Text) ++ " entries for " ++ (instructions : Text) ++
      " instructions")
  | unpatched position name => .entry .unpatchedJump [position, .text name]
  | invalidOpcode number => .plain ("invalid opcode " ++ (number : Text))
  | target op operand => .plain (op.name ++ " target " ++ (operand : Text) ++ " out of range")
  | constantIndex operand => .plain ("constant index " ++ (operand : Text) ++ " out of range")
  | nameIndex operand => .plain ("name index " ++ (operand : Text) ++ " out of range")
  | notAName op operand => .plain (op.name ++ " operand " ++ (operand : Text) ++ " is not a name")
  | buildKind kind => .plain ("invalid build kind " ++ (kind : Text))
  | sliceCount count => .plain ("slice takes 3 values, got " ++ (count : Text))
  | dupCount operand => .plain ("DUP " ++ (operand : Text) ++ " not supported")
  | rotCount operand => .plain ("ROT " ++ (operand : Text) ++ " not supported")
  | noCodeObject op => .plain (op.name ++ " without a code object" : String)
  | notAfterCode op => .plain (op.name ++ " must follow LOAD_CONST of a code object" : String)
  | operandRange op operand =>
    .plain (op.name ++ " operand " ++ (operand : Text) ++ " out of range")
  | unknownTag index tag =>
    .plain ("constant " ++ (index : Text) ++ " has unknown tag " ++ (tag.toNat : Text))
  | nilCode index => .plain ("constant " ++ (index : Text) ++ " is a nil code object")
  | underflow op needs has =>
    .plain (op.name ++ " needs " ++ (needs : Text) ++ " stack values, has " ++ (has : Text))
  | fallsOff => .plain "falls off the end of the code"
  | inconsistent before now =>
    .plain ("inconsistent stack depth " ++ (before : Text) ++ " and " ++ (now : Text))

end VerifyCause

/-- What is wrong with a code object, and where. -/
structure VerifyError where
  /-- The name of the code object. -/
  name : Text
  /-- The position of the instruction. -/
  position : Nat
  cause : VerifyCause
  deriving DecidableEq, Repr

namespace VerifyError

/-- An error on one line. -/
def text (language : Language) (e : VerifyError) : Text :=
  "bytecode verification failed in " ++ e.name ++ " at " ++
    Text.padLeft 4 '0' (e.position : Text) ++ ": " ++ e.cause.message.text language

end VerifyError

namespace Instr

/-- How many values an instruction takes from the stack, or has to find there. -/
def stackNeed (i : Instr) : Nat :=
  match i.op with
  | .loadConst | .loadName | .loadSpecial | .importModule => 0
  | .deleteName | .jump | .handle | .try => 0
  | .storeName => 1
  | .loadAttr | .unary | .iter => 1
  | .storeAttr => 2
  | .deleteAttr | .pop | .ret | .jumpIfFalse | .jumpIfTrue => 1
  | .subscr => if i.operand = 1 then 3 else 2
  | .binary | .compare => 2
  | .build =>
    let (kind, count) := splitBuild i.operand
    if kind = BuildKind.dict.number then count * 2 else count
  | .call =>
    let (positional, keywords) := splitCall i.operand
    positional + 2 * keywords + 1
  | .dup => i.operand
  | .rot => i.operand
  | .next => 1
  | .raise => i.operand
  | .makeFunction | .makeClass => i.operand + 1
  | .importFrom => 1
  | .format => if i.operand / formatSpecBit % 2 = 1 then 2 else 1

/-- How many values stand in the place of those an instruction needs, once it is done. -/
def stackYield (i : Instr) : Nat :=
  match i.op with
  | .loadConst | .loadName | .loadSpecial | .importModule => 1
  | .deleteName | .jump | .handle | .try => 0
  | .storeName => 0
  | .loadAttr | .unary | .iter => 1
  | .storeAttr => 0
  | .deleteAttr | .pop | .ret | .jumpIfFalse | .jumpIfTrue => 0
  | .subscr => if i.operand = 0 then 1 else 0
  | .binary | .compare => 1
  | .build | .call => 1
  | .dup => 2 * i.operand
  | .rot => i.operand
  | .next => 2
  | .raise => 0
  | .makeFunction | .makeClass => 1
  | .importFrom => 2
  | .format => 1

/-- The depth of the stack after an instruction that finds what it needs. -/
def stackAfter (i : Instr) (depth : Nat) : Nat := depth - i.stackNeed + i.stackYield

/-- Where an instruction at a position leads, in the order in which the places are visited, and with
which depth of the stack. At the end of an iteration the iterator stays; a handler finds the
exception on top. -/
def flows (i : Instr) (position depth : Nat) : List (Nat × Nat) :=
  let taken := match i.op with
    | .jump | .jumpIfFalse | .jumpIfTrue => [(i.operand, i.stackAfter depth)]
    | .next => [(i.operand, depth)]
    | .try => [(i.operand, depth + 1)]
    | _ => []
  if i.op.terminates then taken else taken ++ [(position + 1, i.stackAfter depth)]

/-- The largest operand of an operation whose operand is a choice. -/
def operandLimit? : Opcode → Option Nat
  | .subscr => some 2
  | .binary => some (binarySymbols.length - 1)
  | .unary => some (unarySymbols.length - 1)
  | .compare => some (compareSymbols.length - 1)
  | .raise => some 2
  | .loadSpecial => some (specialNames.length - 1)
  | .format => some 7
  | _ => none

end Instr

/-- What the checks look at: the parts of a code object, ready to be looked up. -/
structure CodeView where
  words : Array Word
  constants : Array Constant

namespace CodeView

/-- The instruction at a position. -/
def instr? (v : CodeView) (position : Nat) : Option Instr :=
  v.words[position]?.bind Instr.decode?

/-- Whether the instruction at a position loads a code object. -/
def loadsCode (v : CodeView) (position : Nat) : Bool :=
  match v.instr? position with
  | some ⟨.loadConst, k⟩ => v.constants[k]?.any Constant.isCode
  | _ => false

/-- Checks what the operand refers to. -/
def checkReference (v : CodeView) (i : Instr) : Except VerifyCause Unit :=
  if i.op.isJump then
    if i.operand ≥ v.words.size then throw (.target i.op i.operand) else pure ()
  else if i.op = .loadConst then
    if i.operand ≥ v.constants.size then throw (.constantIndex i.operand) else pure ()
  else if i.op.usesName then
    match v.constants[i.operand]? with
    | none => throw (.nameIndex i.operand)
    | some k => if k.isName then pure () else throw (.notAName i.op i.operand)
  else pure ()

/-- Checks the range of the operand, and what has to stand before the instruction. -/
def checkOperand (v : CodeView) (position : Nat) (i : Instr) : Except VerifyCause Unit :=
  match i.op with
  | .build =>
    let (kind, count) := splitBuild i.operand
    if kind > BuildKind.slice.number then throw (.buildKind kind)
    else if kind = BuildKind.slice.number ∧ count ≠ 3 then throw (.sliceCount count)
    else pure ()
  | .dup => if i.operand < 1 ∨ i.operand > 2 then throw (.dupCount i.operand) else pure ()
  | .rot => if i.operand < 2 ∨ i.operand > 3 then throw (.rotCount i.operand) else pure ()
  | .makeFunction | .makeClass =>
    if position = 0 then throw (.noCodeObject i.op)
    else if v.loadsCode (position - 1) then pure ()
    else throw (.notAfterCode i.op)
  | op =>
    match Instr.operandLimit? op with
    | some limit => if i.operand > limit then throw (.operandRange op i.operand) else pure ()
    | none => pure ()

/-- Checks the encoding of the instruction at a position of a code object with a name. -/
def checkWord (v : CodeView) (name : Text) (position : Nat) (w : Word) :
    Except VerifyCause Unit := do
  if w = Word.placeholder then throw (.unpatched position name)
  match Instr.decode? w with
  | none => throw (.invalidOpcode w.opNumber)
  | some i =>
    v.checkReference i
    v.checkOperand position i

/-- Checks the encoding of instructions from a position on. -/
def checkWords (v : CodeView) (name : Text) : Nat → List Word → Except VerifyError Unit
  | _, [] => pure ()
  | position, w :: rest => do
    match v.checkWord name position w with
    | .error cause => throw ⟨name, position, cause⟩
    | .ok _ => v.checkWords name (position + 1) rest

/-- Checks the kinds of constants from an index on. -/
def checkConstants : Nat → List Constant → Except VerifyCause Unit
  | _, [] => pure ()
  | i, .unknown tag :: _ => throw (.unknownTag i tag)
  | i, .noCode :: _ => throw (.nilCode i)
  | i, _ :: rest => checkConstants (i + 1) rest

end CodeView

/-- The state of the walk along all paths. -/
structure Depths where
  /-- The depth found so far before each instruction. -/
  depth : Array (Option Nat)
  /-- The positions still to be visited, the next one first. -/
  work : List Nat
  /-- The largest depth found after an instruction. -/
  deepest : Nat := 0

namespace Depths

/-- The walk at the first instruction of a code object of a size. -/
def start (size : Nat) : Depths :=
  { depth := (Array.replicate size none).setIfInBounds 0 (some 0), work := [0] }

/-- Notes that a path leads from one position to another with a depth. -/
def flow (name : Text) (d : Depths) (source target depth : Nat) : Except VerifyError Depths :=
  match d.depth[target]? with
  | none => throw ⟨name, source, .fallsOff⟩
  | some none =>
    pure { d with depth := d.depth.setIfInBounds target (some depth), work := target :: d.work }
  | some (some before) =>
    if before = depth then pure d else throw ⟨name, target, .inconsistent before depth⟩

/-- Visits the instruction at a position. -/
def visit (name : Text) (v : CodeView) (d : Depths) (position : Nat) : Except VerifyError Depths :=
  match v.instr? position, d.depth[position]?.join with
  | some i, some depth =>
    if depth < i.stackNeed then throw ⟨name, position, .underflow i.op i.stackNeed depth⟩
    else
      let d := { d with deepest := max d.deepest (i.stackAfter depth) }
      (i.flows position depth).foldlM
        (fun d (target, after) => d.flow name position target after) d
  | _, _ => pure d

/-- Visits positions until none is left, at most `n` of them. -/
def walk (name : Text) (v : CodeView) : Nat → Depths → Except VerifyError Depths
  | 0, d => pure d
  | n + 1, d =>
    match d.work with
    | [] => pure d
    | position :: work => do
      let d ← visit name v { d with work } position
      walk name v n d

end Depths

namespace Code

/-- The parts of a code object, ready to be looked up. -/
def view (c : Code) : CodeView := ⟨c.words.toArray, c.constants.toArray⟩

/-- Follows the depth of the stack along every path; gives the largest one. Each position is visited
at most once. -/
def checkStack (c : Code) : Except VerifyError Nat :=
  if c.size = 0 then pure 0
  else do
    let d ← Depths.walk c.name c.view (c.size + 1) (Depths.start c.size)
    return d.deepest

/-- Checks a code object without those nested in it; gives the largest depth of its stack. -/
def checkAlone (c : Code) : Except VerifyError Nat := do
  if c.instructions.length % 2 ≠ 0 then throw ⟨c.name, 0, .oddLength c.instructions.length⟩
  if c.lines.length ≠ c.size then throw ⟨c.name, 0, .lineTable c.lines.length c.size⟩
  c.view.checkWords c.name 0 c.words
  match CodeView.checkConstants 0 c.constants with
  | .error cause => throw ⟨c.name, 0, cause⟩
  | .ok _ => c.checkStack

/-- Checks a code object and all those nested in it. -/
def verify (c : Code) : Except VerifyError Unit :=
  c.nested.forM fun inner => do
    let _ ← inner.checkAlone

end Code

end Toolchain
