import Toolchain.Bytecode.Code

/-!
# Disassembly

The readable form of a code object: one line for each instruction, with its position, its source
line where that changes, and what its operand stands for; then the code objects nested in it.

## Main definitions

* `Code.annotation`: what an operand stands for
* `Code.disassembly`: the readable form
-/

namespace Toolchain

namespace Code

/-- The parameters as they are declared. -/
def declared (params : List Text) (vararg kwarg : Text) : List Text :=
  params ++ (if vararg.isEmpty then [] else ["*" ++ vararg]) ++
    (if kwarg.isEmpty then [] else ["**" ++ kwarg])

/-- What the operand of a formatting instruction stands for. -/
def formatNote (operand : Nat) : String :=
  let conversion := ["", "!s", "!r", "!a"].getD (operand % 4) ""
  if operand / formatSpecBit % 2 = 1 then
    if conversion.isEmpty then "with spec" else conversion ++ " with spec"
  else conversion

/-- What an operand stands for; empty if there is nothing to say. -/
def annotation (constants : Array Constant) (op : Opcode) (operand : Nat) : Text :=
  if op = .loadConst || op.usesName then
    match constants[operand]? with
    | some k => k.text
    | none => "out of range"
  else if op.isJump then "to " ++ (operand : Text)
  else match op with
    | .subscr => (subscriptNames.getD operand "?" : String)
    | .binary => symbolOf binarySymbols operand
    | .unary => symbolOf unarySymbols operand
    | .compare => symbolOf compareSymbols operand
    | .build =>
      let (kind, count) := splitBuild operand
      match BuildKind.ofNumber? kind with
      | some kind => kind.name ++ " " ++ (count : Text)
      | none => []
    | .call =>
      let (positional, keywords) := splitCall operand
      (positional : Text) ++ " positional, " ++ (keywords : Text) ++ " keyword"
    | .loadSpecial => (specialNames.getD operand "" : String)
    | .format => formatNote operand
    | _ => []

/-- The part of a line after the source line. -/
def instructionText (constants : Array Constant) (w : Word) : Text :=
  if w = Word.placeholder then "<placeholder>\n"
  else
    let shown := Text.padRight 16 (Opcode.nameOfNumber w.opNumber) ++ " " ++
      Text.padLeft 4 ' ' (w.operand : Text)
    let note := match Opcode.ofNumber? w.opNumber with
      | some op => annotation constants op w.operand
      | none => []
    if note.isEmpty then shown ++ "\n" else shown ++ " (" ++ note ++ ")\n"

/-- The lines of some instructions from a position on, `previous` being the source line of the one
before. -/
def instructionTexts (constants : Array Constant) (position : Nat) (previous : Option Int) :
    List Word → List Int → List Text
  | [], _ => []
  | w :: words, lines =>
    let line := lines.headD 0
    let source : Text :=
      if previous = some line then "   | " else Text.padLeft 4 ' ' (Text.ofInt line) ++ " "
    (Text.padLeft 4 '0' (position : Text) ++ " " ++ source ++ instructionText constants w) ::
      instructionTexts constants (position + 1) (some line) words lines.tail

/-- The first lines of a readable form: what the code object is, and its parameters. -/
def headText (kind : CodeKind) (name filename : Text) (declared : List Text) : Text :=
  "=== " ++ kind.name ++ " " ++ name ++ " (" ++ filename ++ ") ===\n" ++
    (if declared.isEmpty then ([] : Text) else "params: " ++ Text.join ", " declared ++ "\n")

mutual

/-- The parts of the readable form of a code object. -/
def parts : Code → List Text
  | ⟨name, filename, kind, _, params, vararg, kwarg, instructions, lineTable, constants⟩ =>
    headText kind name filename (declared params vararg kwarg) ::
      instructionTexts constants.toArray 0 none (Word.ofByteList instructions)
        (lineTable.getD []) ++
      nestedParts constants

/-- The parts of the readable forms of the code objects in a pool, each after an empty line. -/
def nestedParts : List Constant → List Text
  | [] => []
  | .code c :: rest => Text.ofString "\n" :: parts c ++ nestedParts rest
  | _ :: rest => nestedParts rest

end

/-- The readable form of a code object. -/
def disassembly (c : Code) : Text := (parts c).flatten

end Code

end Toolchain
