import Toolchain.Bytecode.Code

/-!
# Code objects as they are held

What is held of a code object is more than what it means. A list that has no items may be empty or
missing. A constant has the fields of all kinds of constants, of which its own kind uses one. The
interchange form tells some of this.

## Main definitions

* `CodeRecord`, `ConstantRecord`: code objects and constants as they are held
* `CodeRecord.fold`: recursion over the code objects in a record
* `CodeRecord.code`: the code object that a record is for
* `CodeRecord.normal`: a record without what does not count as a difference
* `Code.record`: how a code object is held that was made step by step
-/

namespace Toolchain

/-- A code object as it is held, whose constants are of type `κ`. -/
structure RecordOf (κ : Type) where
  name : Text
  filename : Text
  kind : UInt8
  firstLine : Int
  params : Option (List Text) := none
  vararg : Text := []
  kwarg : Text := []
  instructions : Option (List UInt8) := none
  lines : Option (List Int) := none
  constants : Option (List κ) := none

/-- A constant as it is held, whose code object is of type `α`. Its tag says which of the other
fields it uses. -/
structure ConstantOf (α : Type) where
  tag : UInt8
  string : Text := []
  int : Int64 := 0
  float : Binary64 := ⟨0⟩
  code : Option α := none

/-- A constant as it is held. -/
inductive ConstantRecord where
  | mk (fields : ConstantOf (RecordOf ConstantRecord))

/-- A code object as it is held. -/
abbrev CodeRecord := RecordOf ConstantRecord

/-- The fields of a constant. -/
def ConstantRecord.fields : ConstantRecord → ConstantOf CodeRecord
  | mk fields => fields

/-- The tag of constants that are code objects. -/
def codeTag : UInt8 := 4

namespace RecordOf

variable {κ μ : Type}

/-- A record with its constants changed. -/
def map (f : κ → μ) (r : RecordOf κ) : RecordOf μ :=
  { r with constants := r.constants.map (List.map f) }

/-- The constants, none if their list is missing. -/
def pool (r : RecordOf κ) : List κ := r.constants.getD []

end RecordOf

namespace ConstantOf

variable {α β : Type}

/-- A constant with its code object changed. -/
def map (f : α → β) (k : ConstantOf α) : ConstantOf β := { k with code := k.code.map f }

/-- The code object, unless the constant is of another kind. -/
def body? (k : ConstantOf α) : Option α := if k.tag = codeTag then k.code else none

/-- The constant that is meant. -/
def meaning (k : ConstantOf Code) : Constant :=
  match k.tag.toNat with
  | 0 => .name k.string
  | 1 => .string k.string
  | 2 => .int k.int
  | 3 => .float k.float
  | 4 => match k.code with
    | some c => .code c
    | none => .noCode
  | _ => .unknown k.tag

end ConstantOf

namespace CodeRecord

section Fold

variable {α β : Type} (code : RecordOf β → α) (constant : ConstantOf α → β)

mutual

/-- What is made of a record, given what is made of one code object and of one constant when it is
known for those in them. -/
def fold : CodeRecord → α
  | ⟨name, filename, kind, firstLine, params, vararg, kwarg, instructions, lines, constants⟩ =>
    code ⟨name, filename, kind, firstLine, params, vararg, kwarg, instructions, lines,
      foldPool constants⟩

/-- What is made of a pool. -/
def foldPool : Option (List ConstantRecord) → Option (List β)
  | none => none
  | some ks => some (foldAll ks)

/-- What is made of constants. -/
def foldAll : List ConstantRecord → List β
  | [] => []
  | k :: rest => foldOne k :: foldAll rest

/-- What is made of a constant. -/
def foldOne : ConstantRecord → β
  | ⟨tag, string, int, float, body⟩ => constant ⟨tag, string, int, float, foldBody body⟩

/-- What is made of the code object of a constant. -/
def foldBody : Option CodeRecord → Option α
  | none => none
  | some r => some (fold r)

end

end Fold

/-- The code object that a record is for. -/
def code : CodeRecord → Code :=
  fold (fun r => { name := r.name, filename := r.filename, kind := .ofNumber r.kind
                   firstLine := r.firstLine, params := r.params.getD [], vararg := r.vararg
                   kwarg := r.kwarg, instructions := r.instructions.getD [], lineTable := r.lines
                   constants := r.pool })
    ConstantOf.meaning

/-- A record without what does not count as a difference: whether a list without items is missing,
and code objects that a constant of another kind has. -/
def normal : CodeRecord → CodeRecord :=
  fold (fun r => { r with params := some (r.params.getD [])
                          instructions := some (r.instructions.getD [])
                          lines := some (r.lines.getD []), constants := some r.pool })
    fun k => ⟨{ k with code := k.body? }⟩

end CodeRecord

/-- A list as it is held if items were put into it one by one: it is missing until the first. -/
def heldList {α : Type} (l : List α) : Option (List α) := if l.isEmpty then none else some l

namespace Code

mutual

/-- How a code object is held that was made step by step. -/
def record : Code → CodeRecord
  | ⟨name, filename, kind, firstLine, params, vararg, kwarg, instructions, lineTable, constants⟩ =>
    { name, filename, kind := kind.number, firstLine, params := heldList params, vararg, kwarg
      instructions := heldList instructions, lines := lineTable
      constants := heldList (recordsOf constants) }

/-- How constants are held. -/
def recordsOf : List Constant → List ConstantRecord
  | [] => []
  | .name t :: rest => ⟨{ tag := 0, string := t }⟩ :: recordsOf rest
  | .string t :: rest => ⟨{ tag := 1, string := t }⟩ :: recordsOf rest
  | .int n :: rest => ⟨{ tag := 2, int := n }⟩ :: recordsOf rest
  | .float x :: rest => ⟨{ tag := 3, float := x }⟩ :: recordsOf rest
  | .code c :: rest => ⟨{ tag := codeTag, code := some (record c) }⟩ :: recordsOf rest
  | .noCode :: rest => ⟨{ tag := codeTag }⟩ :: recordsOf rest
  | .unknown tag :: rest => ⟨{ tag }⟩ :: recordsOf rest

end

end Code

end Toolchain
