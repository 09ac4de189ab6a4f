import Toolchain.Bytecode.Code
import Toolchain.Parser.Block

/-!
# Compilation

The compiler walks a tree once and appends instructions to the code object in the making. A jump
forward gets a place that is written once its target is known. This module holds the compiler's
state and the steps that the rules are made of.

## Main definitions

* `CompileState`, `Compile`: the state, and a step that may end in a fault
* `Compile.emit`, `Compile.reserve`, `Compile.patch`: writing instructions
* `Compile.nestedCode`: compiling a code object inside another
-/

namespace Toolchain

/-- How far the compilation of a `try` statement has come. -/
inductive TryPhase where
  /-- In the protected body. -/
  | body
  /-- In a handler. -/
  | handler
  /-- In the alternative or the final part: the handler is no longer registered. -/
  | final
  deriving DecidableEq, Repr

/-- A loop that is being compiled: the places of its jumps to the next round and to its exit. -/
structure LoopFrame where
  continues : List Nat := []
  breaks : List Nat := []
  /-- The number of `try` statements around the loop. -/
  tryDepth : Nat

/-- What is asked of a code object in the making. -/
inductive CodeRequest where
  /-- An instruction is appended at a position. -/
  | emit (position : Nat) (i : Instr)
  /-- A place is appended at a position. -/
  | reserve (position : Nat)
  /-- An instruction is written into a place. -/
  | patch (place : Nat) (i : Instr)
  deriving DecidableEq, Repr

/-- A code object in the making with the statements around the current one, innermost first. -/
structure CodeFrame where
  builder : CodeBuilder := {}
  loops : List LoopFrame := []
  tries : List TryPhase := []
  /-- What was asked of the code object so far, the latest first. -/
  requests : List CodeRequest := []

/-- The state of the compiler. -/
structure CompileState where
  /-- The name of the file. -/
  file : Text
  frame : CodeFrame := {}
  /-- The source line of what is being compiled. -/
  line : Nat
  /-- The column of the statement that is being compiled. -/
  column : Nat := 0
  /-- The number of code objects begun. -/
  codes : Nat := 0

/-- A step of the compiler. -/
abbrev Compile (α : Type) := StateT CompileState (Except Fault) α

namespace Compile

/-- Ends the compilation at a place. -/
def failAt {α : Type} (code : ErrorCode) (pos : Position) (message : Message) : Compile α :=
  throw { code, pos, width := 0, message, hints := code.hints }

/-- Ends the compilation at the current statement. -/
def fail {α : Type} (code : ErrorCode) (message : Message) : Compile α := do
  let s ← get
  failAt code ⟨s.line, s.column⟩ message

/-- Ends the compilation: a number does not fit into an operand. -/
def overflow {α : Type} (op : Opcode) (operand limit : Nat) : Compile α := do
  fail .operandRange (.entry .operandOverflow [op.name, operand, limit, (← get).line])

/-- Changes the code object in the making. -/
def modifyBuilder (f : CodeBuilder → CodeBuilder) : Compile Unit :=
  modify fun s => { s with frame := { s.frame with builder := f s.frame.builder } }

/-- Notes what is asked of the code object in the making. -/
def note (r : CodeRequest) : Compile Unit :=
  modify fun s => { s with frame := { s.frame with requests := r :: s.frame.requests } }

/-- Sets the current source line. -/
def setLine (line : Nat) : Compile Unit := modify fun s => { s with line }

/-- The position of the next instruction. -/
def position : Compile Nat := do
  return (← get).frame.builder.position

/-- The instruction, if its operand fits. -/
def encoded (op : Opcode) (operand : Nat) : Compile Word := do
  if operand > maxOperand then overflow op operand maxOperand
  else return Instr.encode ⟨op, operand⟩

/-- Appends an instruction. -/
def emit (op : Opcode) (operand : Nat) : Compile Unit := do
  let w ← encoded op operand
  note (.emit (← position) ⟨op, operand⟩)
  let line := (← get).line
  modifyBuilder fun b => b.push w line

/-- Appends a place for an instruction that is written later; gives its position. -/
def reserve : Compile Nat := do
  let s ← get
  note (.reserve s.frame.builder.position)
  modifyBuilder fun b => b.reserve s.line
  return s.frame.builder.position

/-- Writes the instruction of a place. -/
def patch (place : Nat) (op : Opcode) (target : Nat) : Compile Unit := do
  let w ← encoded op target
  note (.patch place ⟨op, target⟩)
  modifyBuilder fun b => b.patch place w

/-- Writes a jump to the next instruction into each of some places. -/
def patchHere (op : Opcode) (places : List Nat) : Compile Unit := do
  let target ← position
  places.forM fun place => patch place op target

/-- Appends an instruction whose operand is a constant. -/
def emitWith (op : Opcode) (k : Constant) : Compile Unit := do
  let s ← get
  let (i, builder) := s.frame.builder.addConstant k
  set { s with frame := { s.frame with builder } }
  emit op i

/-- Loads a constant. -/
def emitConst (k : Constant) : Compile Unit := emitWith .loadConst k

/-- Appends an instruction whose operand is a name. -/
def emitName (op : Opcode) (name : String) : Compile Unit := emitWith op (.name name)

/-- Loads a constant of the language: none, true or false. -/
def emitSpecial (value : Option Bool) : Compile Unit :=
  emit .loadSpecial (match value with
    | none => 0
    | some true => 1
    | some false => 2)

/-- Compiles a code object inside another one. The loops and `try` statements around it are not its
own. -/
def nestedCode (name : Text) (kind : CodeKind) (firstLine : Nat) (body : Compile Unit) :
    Compile Code := do
  let outer := (← get).frame
  modify fun s => { s with frame := {}, codes := s.codes + 1 }
  body
  let s ← get
  let b := s.frame.builder
  set { s with frame := outer }
  return { name, filename := s.file, kind, firstLine, instructions := b.bytes,
           lineTable := b.lineTable, constants := b.constants.toList }

/-- A code object with the parameters of a signature. -/
def withParams {ε : Type} (c : Code) (s : Signature Mark ε) : Code :=
  { c with
    params := s.params.map fun p => Text.ofString p.name
    vararg := (s.vararg.map fun p => Text.ofString p.name).getD []
    kwarg := (s.kwarg.map fun p => Text.ofString p.name).getD [] }

end Compile

end Toolchain
