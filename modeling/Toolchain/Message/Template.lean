import Toolchain.Text.Basic

/-!
# Message templates

A template is a text with directives that take values: `%s` a text, `%d` an integer, `%c` a
character. A directive takes the next value, or the one whose number it names, as in `%[2]s`.
Filling a template never fails: a directive without a value, or with a value of another type, and
values that no directive takes are shown in place.

## Main definitions

* `Template.Value`: what fills a template
* `Template`, `Template.ofString`: templates, and how they are written
* `Template.fill`: a template filled with values
-/

namespace Toolchain

/-- A part of a template. -/
inductive Template.Piece where
  /-- A character that stands for itself. -/
  | plain (c : Char)
  /-- A directive, with the number of the value it names. -/
  | directive (index : Option Nat) (verb : Char)
  deriving DecidableEq, Repr

/-- A template: its parts in order. -/
structure Template where
  pieces : List Template.Piece
  deriving DecidableEq, Repr

namespace Template

/-- A value that fills a template. -/
inductive Value where
  | text (t : Text)
  | int (n : Int)
  | char (c : Char)
  deriving DecidableEq, Repr

instance : Coe Nat Value := ⟨fun n => .int n⟩

instance : Coe String Value := ⟨fun s => .text s⟩

namespace Value

/-- The name of the type of a value. -/
def typeName : Value → String
  | text _ => "string"
  | int _ => "int"
  | char _ => "int32"

/-- A value as it is shown outside a directive. -/
def shown : Value → Text
  | text t => t
  | int n => Text.ofInt n
  | char c => Text.ofNat c.toNat

/-- The character with a given code point; a number that is none gives the replacement character. -/
def charOfInt (n : Int) : Char :=
  if h : n.toNat.isValidChar ∧ 0 ≤ n then Char.ofNatAux n.toNat h.1 else '\uFFFD'

/-- A value under a directive of its type. -/
def under? : Char → Value → Option Text
  | 's', text t => some t
  | 'd', int n => some (Text.ofInt n)
  | 'd', char c => some (Text.ofNat c.toNat)
  | 'c', char c => some (Text.ofChars [c])
  | 'c', int n => some (Text.ofChars [charOfInt n])
  | _, _ => none

/-- A value with its type. -/
def typed (v : Value) : Text := v.typeName ++ "=" ++ v.shown

end Value

/-- The parts of a written template. -/
def parse : List Char → List Piece
  | [] => []
  | '%' :: '[' :: digit :: ']' :: verb :: rest =>
    .directive (some (digit.toNat - '0'.toNat)) verb :: parse rest
  | '%' :: verb :: rest =>
    (if verb = '%' then .plain '%' else .directive none verb) :: parse rest
  | c :: rest => .plain c :: parse rest

/-- The template that a string writes. -/
def ofString (s : String) : Template := ⟨parse s.toList⟩

/-- Whether a directive names its value. -/
def Piece.isIndexed : Piece → Bool
  | .directive (some _) _ => true
  | _ => false

/-- What stands for a directive that has no value to show. -/
def bad (verb : Char) (reason : Text) : Text :=
  "%!" ++ Text.ofChars [verb] ++ "(" ++ reason ++ ")"

/-- A directive with the value it takes. -/
def directed (verb : Char) (v : Value) : Text :=
  match v.under? verb with
  | some t => t
  | none => bad verb v.typed

/-- The parts of a template filled in order, `next` being the number of the next value. The second
component is the number of the value after the last one taken. -/
def fillFrom (values : List Value) (next : Nat) : List Piece → List Text × Nat
  | [] => ([], next)
  | .plain c :: rest =>
    let (filled, last) := fillFrom values next rest
    (Text.ofChars [c] :: filled, last)
  | .directive none verb :: rest =>
    match values[next]? with
    | some v =>
      let (filled, last) := fillFrom values (next + 1) rest
      (directed verb v :: filled, last)
    | none =>
      let (filled, last) := fillFrom values next rest
      (bad verb "MISSING" :: filled, last)
  | .directive (some number) verb :: rest =>
    match (if number = 0 then none else values[number - 1]?) with
    | some v =>
      let (filled, last) := fillFrom values number rest
      (directed verb v :: filled, last)
    | none =>
      let (filled, last) := fillFrom values next rest
      (bad verb "BADINDEX" :: filled, last)

/-- The values that no directive takes. They are shown only after a template in which no directive
names its value. -/
def surplus (t : Template) (values : List Value) (last : Nat) : Text :=
  let unused := values.drop last
  if unused.isEmpty || t.pieces.any Piece.isIndexed then []
  else "%!(EXTRA " ++ Text.join ", " (unused.map Value.typed) ++ ")"

/-- How a template is written. -/
def Piece.written : Piece → List Char
  | .plain '%' => ['%', '%']
  | .plain c => [c]
  | .directive none verb => ['%', verb]
  | .directive (some number) verb => '%' :: '[' :: (Nat.repr number).toList ++ [']', verb]

/-- A template filled with values. Without any value the template stands as it is written. -/
def fill (t : Template) (values : List Value) : Text :=
  if values.isEmpty then Text.ofChars (t.pieces.flatMap Piece.written)
  else
    let (filled, last) := fillFrom values 0 t.pieces
    filled.flatten ++ t.surplus values last

end Template

end Toolchain
