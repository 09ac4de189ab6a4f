import Toolchain.Text.Quoted

/-!
# JSON values

The values of the JSON data format and how they are written: keys in the order given, strings with
escapes for control characters, for the characters that are special in markup and for the two line
separators. A number is kept as it is written.

A record in JSON is an object whose keys are the names of its fields. A key need not be spelled as
the name is: letters may differ in case.

## Main definitions

* `Json`: the values
* `Json.compact`, `Json.indented`: the two written forms
* `Json.sorted`: an object with its keys in order
* `Json.looseKey`: what is left of a key if case is ignored
* `Json.isKeyOf`: whether a key is that of a field
-/

namespace Toolchain

/-- A JSON value. -/
inductive Json where
  | null
  | bool (b : Bool)
  /-- A number, as it is written. -/
  | number (literal : String)
  | string (t : Text)
  | array (items : List Json)
  /-- An object, with its members in order. -/
  | object (members : List (String × Json))
  deriving Repr

namespace Json

instance : Coe Bool Json := ⟨bool⟩

instance : Coe Text Json := ⟨string⟩

/-- The JSON string of a string. -/
def ofString (s : String) : Json := string s

/-- The JSON number of an integer. -/
def ofInt (n : Int) : Json := number (if n < 0 then "-" ++ Nat.repr n.natAbs else Nat.repr n.natAbs)

/-- The JSON number of a natural number. -/
def ofNat (n : Nat) : Json := number (Nat.repr n)

/-- Strings in the order of their UTF-8 bytes. -/
def keyLe (a b : String) : Bool := !(b < a)

/-- An object with its members in the order of their keys. -/
def sorted (members : List (String × Json)) : Json :=
  object (members.mergeSort fun a b => keyLe a.1 b.1)

/-- How one unit of a string is written between the quotes. -/
def escapedGlyph : Glyph → List Char
  | .stray _ => ['\\', 'u', 'f', 'f', 'f', 'd']
  | .char c =>
    if c = '"' ∨ c = '\\' then ['\\', c]
    else if c = '\n' then ['\\', 'n']
    else if c = '\r' then ['\\', 'r']
    else if c = '\t' then ['\\', 't']
    else if c.toNat < 0x20 ∨ c = '<' ∨ c = '>' ∨ c = '&' ∨ c = '\u2028' ∨ c = '\u2029' then
      '\\' :: 'u' :: Text.hexPadded 4 c.toNat
    else [c]

/-- A string in quotes. -/
def quotedText (t : Text) : Text :=
  Text.ofChars ('"' :: (t.glyphs.flatMap escapedGlyph ++ ['"']))

mutual

/-- A value without any blanks. -/
def compact : Json → Text
  | null => "null"
  | bool true => "true"
  | bool false => "false"
  | number literal => literal
  | string t => quotedText t
  | array items => "[" ++ compactItems items ++ "]"
  | object members => "\x7b" ++ compactMembers members ++ "\x7d"

/-- Values with commas between them. -/
def compactItems : List Json → Text
  | [] => []
  | [v] => compact v
  | v :: rest => compact v ++ "," ++ compactItems rest

/-- Members with commas between them. -/
def compactMembers : List (String × Json) → Text
  | [] => []
  | [(key, v)] => quotedText key ++ ":" ++ compact v
  | (key, v) :: rest => quotedText key ++ ":" ++ compact v ++ "," ++ compactMembers rest

end

/-- A line break and the blanks that start a line at a depth. -/
def lineBreak (depth : Nat) : Text := "\n" ++ Text.ofChars (List.replicate (2 * depth) ' ')

mutual

/-- A value with each item and member on a line of its own, two blanks deeper than what holds it. -/
def indentedAt (depth : Nat) : Json → Text
  | array (v :: rest) =>
    "[" ++ indentedItems (depth + 1) (v :: rest) ++ lineBreak depth ++ "]"
  | object (m :: rest) =>
    "\x7b" ++ indentedMembers (depth + 1) (m :: rest) ++ lineBreak depth ++ "\x7d"
  | array [] => "[]"
  | object [] => "\x7b\x7d"
  | null => "null"
  | bool true => "true"
  | bool false => "false"
  | number literal => literal
  | string t => quotedText t

/-- Values on lines of their own. -/
def indentedItems (depth : Nat) : List Json → Text
  | [] => []
  | [v] => lineBreak depth ++ indentedAt depth v
  | v :: rest => lineBreak depth ++ indentedAt depth v ++ "," ++ indentedItems depth rest

/-- Members on lines of their own. -/
def indentedMembers (depth : Nat) : List (String × Json) → Text
  | [] => []
  | [(key, v)] => lineBreak depth ++ quotedText key ++ ": " ++ indentedAt depth v
  | (key, v) :: rest =>
    lineBreak depth ++ quotedText key ++ ": " ++ indentedAt depth v ++ "," ++
      indentedMembers depth rest

end

/-- A value with its parts on lines of their own. -/
def indented (v : Json) : Text := indentedAt 0 v

/-- The member of an object with a given key; of several, the last. -/
def get? (v : Json) (key : String) : Option Json :=
  match v with
  | object members => (members.reverse.find? fun m => m.1 == key).map Prod.snd
  | _ => none

/-! ## Keys of records -/

/-- The next one of the letters that differ from an ASCII letter in case only, in lower case. Beside
the small and the capital letter these are the long s and the sign for kelvin: a small letter comes
before them, and they before the capital letter. -/
def nextCase (c : Char) : Char :=
  if c = 's' then '\u017F'
  else if c = 'k' then '\u212A'
  else if c = '\u017F' then 's'
  else if c = '\u212A' then 'k'
  else c.toLower

/-- A key without the case of its letters. In one with characters beyond ASCII each letter is
replaced by the next one that differs from it in case only. -/
def looseKey (key : String) : List Char :=
  let cs := key.toList
  if cs.all fun c => c.toNat < 128 then cs.map Char.toLower else cs.map nextCase

/-- Whether a key is that of a field. -/
def isKeyOf (name key : String) : Bool := looseKey key == looseKey name

/-- The name of a field is a key of it. -/
theorem isKeyOf_self (name : String) : isKeyOf name name := by simp [isKeyOf]

end Json

end Toolchain
