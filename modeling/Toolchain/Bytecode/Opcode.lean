import Toolchain.Operator
import Toolchain.Text.Basic

/-!
# The instruction set

An instruction is a word of sixteen bits: five bits of operation and eleven of operand. Positions in
a code are counted in instructions.

## Main definitions

* `Opcode`: the operations, with their numbers and names
* `Word`: an encoded instruction, with its two parts
* `Instr`: an operation with its operand, and `Instr.encode`, `Instr.decode?`
* `BuildKind`: what the operand of a building instruction stands for
-/

namespace Toolchain

/-- An operation of the stack machine. -/
inductive Opcode where
  /-- Pushes a constant. -/
  | loadConst
  /-- Pushes the value of a name. -/
  | loadName
  /-- Pops a value and binds a name to it. -/
  | storeName
  /-- Removes the binding of a name. -/
  | deleteName
  /-- Replaces an object by its attribute. -/
  | loadAttr
  /-- Pops an object and a value below it, which becomes its attribute. -/
  | storeAttr
  /-- Pops an object and removes its attribute. -/
  | deleteAttr
  /-- Loads, stores or deletes an item. -/
  | subscr
  | binary
  | unary
  | compare
  /-- Builds a list, a tuple, a dictionary or a slice. -/
  | build
  | call
  /-- Pops a value and returns it. -/
  | ret
  | pop
  | jump
  /-- Pops a value and jumps if it is false. -/
  | jumpIfFalse
  /-- Pops a value and jumps if it is true. -/
  | jumpIfTrue
  /-- Copies the topmost values. -/
  | dup
  /-- Moves the topmost value below others. -/
  | rot
  /-- Replaces an object by an iterator. -/
  | iter
  /-- Pushes the next value of the iterator on top, or jumps and leaves the iterator. -/
  | next
  /-- Registers a handler. -/
  | try
  /-- Removes the latest handler. -/
  | handle
  | raise
  | makeFunction
  | makeClass
  /-- Pushes a module. -/
  | importModule
  /-- Pushes something from the module on top. -/
  | importFrom
  /-- Pushes a constant of the language. -/
  | loadSpecial
  /-- Formats a value. -/
  | format
  deriving DecidableEq, Repr

namespace Opcode

/-- All operations in the order of their numbers. -/
def all : List Opcode :=
  [.loadConst, .loadName, .storeName, .deleteName, .loadAttr, .storeAttr, .deleteAttr, .subscr,
   .binary, .unary, .compare, .build, .call, .ret, .pop, .jump, .jumpIfFalse, .jumpIfTrue, .dup,
   .rot, .iter, .next, .try, .handle, .raise, .makeFunction, .makeClass, .importModule,
   .importFrom, .loadSpecial, .format]

/-- The number of an operation. -/
def number : Opcode → Nat
  | .loadConst => 0 | .loadName => 1 | .storeName => 2 | .deleteName => 3 | .loadAttr => 4
  | .storeAttr => 5 | .deleteAttr => 6 | .subscr => 7 | .binary => 8 | .unary => 9
  | .compare => 10 | .build => 11 | .call => 12 | .ret => 13 | .pop => 14 | .jump => 15
  | .jumpIfFalse => 16 | .jumpIfTrue => 17 | .dup => 18 | .rot => 19 | .iter => 20 | .next => 21
  | .try => 22 | .handle => 23 | .raise => 24 | .makeFunction => 25 | .makeClass => 26
  | .importModule => 27 | .importFrom => 28 | .loadSpecial => 29 | .format => 30

/-- The operation with a given number. -/
def ofNumber? (n : Nat) : Option Opcode := all[n]?

/-- The name of an operation. -/
def name : Opcode → String
  | .loadConst => "LOAD_CONST" | .loadName => "LOAD_NAME" | .storeName => "STORE_NAME"
  | .deleteName => "DELETE_NAME" | .loadAttr => "LOAD_ATTR" | .storeAttr => "STORE_ATTR"
  | .deleteAttr => "DELETE_ATTR" | .subscr => "SUBSCR" | .binary => "BINARY" | .unary => "UNARY"
  | .compare => "COMPARE" | .build => "BUILD" | .call => "CALL" | .ret => "RETURN" | .pop => "POP"
  | .jump => "JMP" | .jumpIfFalse => "JNT" | .jumpIfTrue => "JIT" | .dup => "DUP" | .rot => "ROT"
  | .iter => "ITER" | .next => "NEXT" | .try => "TRY" | .handle => "HANDLE" | .raise => "RAISE"
  | .makeFunction => "MAKE_FUNCTION" | .makeClass => "MAKE_CLASS" | .importModule => "IMPORT"
  | .importFrom => "IMPORT_FROM" | .loadSpecial => "LOAD_SPECIAL" | .format => "FORMAT"

/-- The name shown for a number: that of its operation, or the number itself. -/
def nameOfNumber (n : Nat) : String :=
  match ofNumber? n with
  | some op => op.name
  | none => "UNKNOWN(" ++ Nat.repr n ++ ")"

/-- Whether the operand is a position to jump to. -/
def isJump : Opcode → Bool
  | .jump | .jumpIfFalse | .jumpIfTrue | .next | .try => true
  | _ => false

/-- Whether the operand is the index of a name among the constants. -/
def usesName : Opcode → Bool
  | .loadName | .storeName | .deleteName | .loadAttr | .storeAttr | .deleteAttr | .importModule
  | .importFrom => true
  | _ => false

/-- Whether the instruction after it is never reached from it. -/
def terminates : Opcode → Bool
  | .ret | .raise | .jump => true
  | _ => false

theorem ofNumber?_number (op : Opcode) : ofNumber? op.number = some op := by
  cases op <;> rfl

end Opcode

/-- An encoded instruction. -/
abbrev Word := UInt16

/-- The largest operand. -/
def maxOperand : Nat := 2047

namespace Word

/-- The word that stands for an instruction still to be written. -/
def placeholder : Word := 0xFFFF

/-- The word of an operation, by number, and an operand. What does not fit is cut off. -/
def encode (op : Nat) (operand : Int) : Word :=
  UInt16.ofNat (op * 2048 + (operand.emod 2048).toNat)

/-- The number of the operation. -/
def opNumber (w : Word) : Nat := w.toNat / 2048

/-- The operand. -/
def operand (w : Word) : Nat := w.toNat % 2048

/-- The two bytes of a word, the high one first. -/
def bytes (w : Word) : List UInt8 := [UInt8.ofNat (w.toNat / 256), UInt8.ofNat (w.toNat % 256)]

/-- The word of two bytes. -/
def ofBytes (high low : UInt8) : Word := UInt16.ofNat (high.toNat * 256 + low.toNat)

/-- The words of a sequence of bytes; a byte left over is no word. -/
def ofByteList : List UInt8 → List Word
  | high :: low :: rest => ofBytes high low :: ofByteList rest
  | _ => []

end Word

/-- An operation with its operand. -/
structure Instr where
  op : Opcode
  operand : Nat
  deriving DecidableEq, Repr

namespace Instr

/-- The word of an instruction. -/
def encode (i : Instr) : Word := Word.encode i.op.number i.operand

/-- The instruction of a word, if its operation exists. -/
def decode? (w : Word) : Option Instr :=
  (Opcode.ofNumber? w.opNumber).map fun op => ⟨op, w.operand⟩

end Instr

/-! ## Operands

An operand with two parts packs them into one word: the parts may be of any type of words. -/

/-- What is built from the values on the stack. -/
inductive BuildKind where
  | list
  | tuple
  | dict
  | slice
  deriving DecidableEq, Repr

namespace BuildKind

/-- The number of a kind. -/
def number : BuildKind → Nat
  | list => 0 | tuple => 1 | dict => 2 | slice => 3

/-- The name of a kind. -/
def name : BuildKind → String
  | list => "List" | tuple => "Tuple" | dict => "Dict" | slice => "Slice"

/-- The kind with a given number. -/
def ofNumber? : Nat → Option BuildKind
  | 0 => some list | 1 => some tuple | 2 => some dict | 3 => some slice | _ => none

end BuildKind

/-- How many values can be built into one. -/
def maxBuildCount : Nat := 511

/-- How many positional arguments a call can have. -/
def maxPositional : Nat := 63

/-- How many keyword arguments a call can have. -/
def maxKeywords : Nat := 31

section Packed

variable {α : Type}

/-- The operand that builds `count` values into one of a kind, by number. -/
def buildOperand [ShiftLeft α] [OrOp α] [OfNat α 9] (kind count : α) : α :=
  kind <<< (9 : α) ||| count

/-- The kind, by number, and the count of an operand. -/
def splitBuild [ShiftRight α] [AndOp α] [OfNat α 9] [OfNat α 511] (operand : α) : α × α :=
  (operand >>> (9 : α), operand &&& (511 : α))

/-- The operand of a call. -/
def callOperand [ShiftLeft α] [OrOp α] [OfNat α 6] (positional keywords : α) : α :=
  keywords <<< (6 : α) ||| positional

/-- The numbers of positional and of keyword arguments of an operand. -/
def splitCall [ShiftRight α] [AndOp α] [OfNat α 6] [OfNat α 63] (operand : α) : α × α :=
  (operand &&& (63 : α), operand >>> (6 : α))

end Packed

/-- The bit that says that a value comes with a format specification. -/
def formatSpecBit : Nat := 4

/-- The names of the constants of the language. -/
def specialNames : List String := ["None", "True", "False"]

/-- The names of the three uses of a subscript. -/
def subscriptNames : List String := ["load", "store", "delete"]

/-- How unary operators are written, by number. -/
def unarySymbols : List String := ["~", "not", "+", "-"]

/-- How comparisons are written, by number. The last one tells whether an exception is of a type. -/
def compareSymbols : List String :=
  ["==", "!=", "<", "<=", ">", ">=", "is", "is not", "in", "not in", "exception match"]

/-- The number of the comparison that tells whether an exception is of a type. -/
def exceptionMatch : Nat := 10

/-- How binary operators are written, by number. -/
def binarySymbols : List String := BinaryOp.all.map BinaryOp.symbol

/-- The entry of a list of names with a number, or the number after a question mark. -/
def symbolOf (names : List String) (n : Int) : String :=
  if n < 0 then "?-" ++ Nat.repr n.natAbs
  else match names[n.toNat]? with
    | some name => name
    | none => "?" ++ Nat.repr n.toNat

end Toolchain
