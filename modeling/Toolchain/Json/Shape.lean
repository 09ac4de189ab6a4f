import Toolchain.Decimal.Binary64
import Toolchain.Json.Basic

/-!
# Shapes of JSON values

A shape says which values a place takes: of the members that a record knows, each has to be of the
right type, and members that it does not know are ignored. A null stands for a value that is
missing.

A value of the right shape is read by merging. Several members with keys of one field amount to one
value: records are merged field by field, the items of a list one by one, and of other values the
last one counts.

## Main definitions

* `Shape`: the shapes
* `Json.fits`: whether a value has a shape
* `Shape.merge`: what several values for one place amount to
* `Shape.read?`: a value of the right shape, each field under its name
* `Json.textAt`, `Json.integerAt`, `Json.boolAt`, `Json.valueAt`, `Json.itemsAt`: fields of a record
-/

namespace Toolchain

/-- The shape of a value. -/
inductive Shape where
  | any
  | text
  | bool
  /-- A number that is not too large for double precision. -/
  | number
  | integer (least most : Int)
  /-- An integer, or a text. -/
  | label (least most : Int)
  | list (item : Shape)
  /-- An object with any keys. -/
  | table (item : Shape)
  | record (fields : List (String × Shape))

namespace Shape

/-- A signed integer of 32 bits. -/
def int32 : Shape := integer (-(twoPow 31 : Int)) (twoPow 31 - 1 : Int)

/-- An unsigned integer of 32 bits. -/
def uint32 : Shape := integer 0 (twoPow 32 - 1 : Int)

/-- The shape of the member with a given key; none if the member is ignored. -/
def member? (s : Shape) (key : String) : Option Shape :=
  match s with
  | any => some any
  | table item => some item
  | record fields => (fields.find? fun f => Json.isKeyOf f.1 key).map Prod.snd
  | _ => none

end Shape

namespace Json

/-- Whether a number is an integer within bounds. -/
def isIntegerIn (least most : Int) (literal : String) : Bool :=
  literal.toInt?.any fun n => least ≤ n && n ≤ most

/-- The integer of decimal digits, which may follow a sign. -/
def signedValue : List Char → Int
  | '-' :: ds => -(Binary64.digitsValue ds : Int)
  | '+' :: ds => Binary64.digitsValue ds
  | ds => Binary64.digitsValue ds

/-- Whether a number, as it is written, is not too large for double precision. -/
def isInRange (literal : String) : Bool :=
  let isMark (c : Char) : Bool := c == 'e' || c == 'E'
  let mantissa := (literal.toList.dropWhile (· == '-')).takeWhile fun c => !isMark c
  let exponent := signedValue ((literal.toList.dropWhile fun c => !isMark c).drop 1)
  let whole := mantissa.takeWhile (· != '.')
  let fraction := (mantissa.dropWhile (· != '.')).drop 1
  Binary64.isFiniteDecimal (Binary64.digitsValue (whole ++ fraction)) (exponent - fraction.length)

mutual

/-- Whether a value has a shape; a null has every shape. -/
def fits (s : Shape) : Json → Bool
  | null => true
  | bool _ => (s matches .any | .bool)
  | string _ => (s matches .any | .text | .label ..)
  | number literal =>
    match s with
    | .any | .number => isInRange literal
    | .integer least most | .label least most => isIntegerIn least most literal
    | _ => false
  | array items =>
    match s with
    | .any => allFit .any items
    | .list item => allFit item items
    | _ => false
  | object members => (s matches .any | .table _ | .record _) && membersFit s members

/-- Whether all values have a shape. -/
def allFit (s : Shape) : List Json → Bool
  | [] => true
  | v :: vs => fits s v && allFit s vs

/-- Whether all members of an object have the shapes that a shape gives them. -/
def membersFit (s : Shape) : List (String × Json) → Bool
  | [] => true
  | (key, v) :: rest =>
    (match s.member? key with
      | some s => fits s v
      | none => true) && membersFit s rest

end

/-- Whether a value is missing. -/
def isMissing : Json → Bool
  | null => true
  | _ => false

/-- The members of an object; other values have none. -/
def memberList : Json → List (String × Json)
  | object members => members
  | _ => []

/-- The items of an array; other values have none. -/
def itemList : Json → List Json
  | array items => items
  | _ => []

/-- The last values, before which one is missing. -/
def sinceMissing (vs : List Json) : List Json :=
  (vs.reverse.takeWhile fun v => !v.isMissing).reverse

/-- The last value that is not missing; a null if all are. -/
def lastGiven (vs : List Json) : Json := (vs.reverse.find? fun v => !v.isMissing).getD null

end Json

namespace Shape

mutual

/-- What several values of a shape for one place amount to, the earliest first. A list is as long as
the last one, and each of its items amounts to the items at its place; a null ends what came
before. -/
def merge : Shape → List Json → Json
  | list item, vs =>
    match (Json.sinceMissing vs).getLast? with
    | none => .null
    | some last =>
      .array ((List.range last.itemList.length).map fun i =>
        merge item ((Json.sinceMissing vs).filterMap fun v => v.itemList[i]?))
  | record fields, vs => .object (mergeFields fields (vs.flatMap Json.memberList))
  | _, vs => Json.lastGiven vs

/-- The fields of a record that has the given members. -/
def mergeFields : List (String × Shape) → List (String × Json) → List (String × Json)
  | [], _ => []
  | (name, s) :: rest, members =>
    (name, merge s ((members.filter fun m => Json.isKeyOf name m.1).map Prod.snd)) ::
      mergeFields rest members

end

/-- A value, if it has the shape, with each field of a record under its name. -/
def read? (s : Shape) (v : Json) : Option Json := if v.fits s then some (s.merge [v]) else none

end Shape

namespace Json

/-- The text of a field; empty if it is missing. -/
def textAt (v : Json) (name : String) : Text :=
  match v.get? name with
  | some (string t) => t
  | _ => []

/-- The integer of a field; zero if it is missing. -/
def integerAt (v : Json) (name : String) : Int :=
  match v.get? name with
  | some (number literal) => literal.toInt?.getD 0
  | _ => 0

/-- The truth value of a field; false if it is missing. -/
def boolAt (v : Json) (name : String) : Bool :=
  match v.get? name with
  | some (bool b) => b
  | _ => false

/-- A field; a null if it is missing. -/
def valueAt (v : Json) (name : String) : Json := (v.get? name).getD null

/-- The items of a field; none if it is missing. -/
def itemsAt (v : Json) (name : String) : List Json := (v.valueAt name).itemList

end Json

end Toolchain
