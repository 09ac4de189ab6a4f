import Toolchain.Bytecode.Opcode
import Toolchain.Decimal.Shortest
import Toolchain.Text.Quoted

/-!
# Code objects

A code object is what a module, a function, a class, a lambda or an expression is compiled to: its
instructions, the source line of each, and a pool of constants, among which are the code objects
nested in it.

## Main definitions

* `CodeKind`, `Constant`, `Code`
* `Constant.same`: whether two constants share a place in the pool
* `CodeBuilder`: a code object in the making, with `emit`, `reserve`, `patch` and `addConstant`
-/

namespace Toolchain

/-- What a code object was compiled from. -/
inductive CodeKind where
  | module
  | function
  | classBody
  | lambda
  | expression
  /-- A number that stands for nothing. -/
  | other (number : UInt8)
  deriving DecidableEq, Repr

namespace CodeKind

/-- The kind with a given number. -/
def ofNumber (n : UInt8) : CodeKind :=
  match n.toNat with
  | 0 => module | 1 => function | 2 => classBody | 3 => lambda | 4 => expression | _ => other n

/-- The number of a kind. -/
def number : CodeKind → UInt8
  | module => 0 | function => 1 | classBody => 2 | lambda => 3 | expression => 4 | other n => n

/-- The name of a kind. -/
def name : CodeKind → String
  | module => "module" | function => "function" | classBody => "class" | lambda => "lambda"
  | expression => "expression" | other n => "kind(" ++ Nat.repr n.toNat ++ ")"

end CodeKind

/-- A code object whose constants are of type `κ`. -/
structure CodeObject (κ : Type) where
  name : Text
  filename : Text
  kind : CodeKind
  firstLine : Int
  params : List Text := []
  /-- The parameter for surplus positional arguments; empty if there is none. -/
  vararg : Text := []
  /-- The parameter for surplus keyword arguments; empty if there is none. -/
  kwarg : Text := []
  /-- The words of the instructions, two bytes each. -/
  instructions : List UInt8 := []
  /-- The source line of each instruction, if there is a table of them. -/
  lineTable : Option (List Int) := none
  constants : List κ := []

/-- A constant of a pool. -/
inductive Constant where
  | name (t : Text)
  | string (t : Text)
  | int (n : Int64)
  | float (x : Binary64)
  | code (c : CodeObject Constant)
  /-- A place for a code object that has none. -/
  | noCode
  /-- A tag that stands for nothing. -/
  | unknown (tag : UInt8)

/-- A code object. -/
abbrev Code := CodeObject Constant

namespace Constant

/-- The number of the kind of a constant. -/
def tag : Constant → UInt8
  | name _ => 0 | string _ => 1 | int _ => 2 | float _ => 3 | code _ => 4 | noCode => 4
  | unknown t => t

/-- The name of the kind with a given number. -/
def tagName (tag : UInt8) : String :=
  match ["Name", "String", "Integer", "Float", "Code"][tag.toNat]? with
  | some s => s
  | none => "Const(" ++ Nat.repr tag.toNat ++ ")"

/-- The constant of a kind that holds nothing. -/
def ofTag (tag : UInt8) : Constant :=
  match tag.toNat with
  | 0 => name [] | 1 => string [] | 2 => int 0 | 3 => float ⟨0⟩ | 4 => noCode | _ => unknown tag

/-- Whether two constants are one: floats by their bits; a code object is only ever itself, and
every one that is added is a new one. -/
def same : Constant → Constant → Bool
  | name a, name b => a == b
  | string a, string b => a == b
  | int a, int b => a == b
  | float a, float b => a == b
  | noCode, noCode => true
  | _, _ => false

/-- How a constant is shown. -/
def text : Constant → Text
  | name t => t
  | string t => Text.quoted t
  | int n => Text.ofInt n.toInt
  | float x => x.general
  | code c => "<code " ++ c.name ++ ">"
  | noCode => "<code nil>"
  | unknown _ => "?"

/-- Whether a constant is a name. -/
def isName : Constant → Bool
  | name _ => true
  | _ => false

/-- Whether a constant has a place for a code object. -/
def isCode : Constant → Bool
  | code _ | noCode => true
  | _ => false

end Constant

namespace CodeObject

variable {κ : Type}

/-- The number of instructions. -/
def size (c : CodeObject κ) : Nat := c.instructions.length / 2

/-- The words of the instructions. -/
def words (c : CodeObject κ) : List Word := Word.ofByteList c.instructions

/-- The source line of each instruction; none without a table. -/
def lines (c : CodeObject κ) : List Int := c.lineTable.getD []

/-- The source line of an instruction; zero if the table has none. -/
def lineAt (c : CodeObject κ) (i : Nat) : Int := c.lines.getD i 0

end CodeObject

mutual

/-- A code object and all code objects nested in it, the outermost first, each followed by those in
its pool. -/
def Code.nested : Code → List Code
  | ⟨name, filename, kind, firstLine, params, vararg, kwarg, instructions, lineTable, constants⟩ =>
    ⟨name, filename, kind, firstLine, params, vararg, kwarg, instructions, lineTable, constants⟩ ::
      Code.nestedIn constants

/-- The code objects nested in some constants. -/
def Code.nestedIn : List Constant → List Code
  | [] => []
  | .code c :: rest => Code.nested c ++ Code.nestedIn rest
  | _ :: rest => Code.nestedIn rest

end

/-- A code object in the making. -/
structure CodeBuilder where
  words : Array Word := #[]
  lines : Array Int := #[]
  constants : Array Constant := #[]

namespace CodeBuilder

/-- The position of the next instruction. -/
def position (b : CodeBuilder) : Nat := b.words.size

/-- Appends a word. -/
def push (b : CodeBuilder) (w : Word) (line : Int) : CodeBuilder :=
  { b with words := b.words.push w, lines := b.lines.push line }

/-- Appends a place for an instruction that is written later. -/
def reserve (b : CodeBuilder) (line : Int) : CodeBuilder := b.push Word.placeholder line

/-- Writes a word at a position. -/
def patch (b : CodeBuilder) (position : Nat) (w : Word) : CodeBuilder :=
  { b with words := b.words.setIfInBounds position w }

/-- The index of a constant in the pool, at whose end it is put unless it is there. -/
def addConstant (b : CodeBuilder) (k : Constant) : Nat × CodeBuilder :=
  match b.constants.findIdx? fun old => old.same k with
  | some i => (i, b)
  | none => (b.constants.size, { b with constants := b.constants.push k })

/-- The table of the source lines, which exists once there is an instruction. -/
def lineTable (b : CodeBuilder) : Option (List Int) :=
  if b.lines.isEmpty then none else some b.lines.toList

/-- The bytes of the instructions. -/
def bytes (b : CodeBuilder) : List UInt8 := b.words.toList.flatMap Word.bytes

end CodeBuilder

end Toolchain
