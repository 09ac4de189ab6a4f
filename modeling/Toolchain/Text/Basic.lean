/-!
# Texts

A text is a sequence of bytes that is meant to be UTF-8. Files, editor buffers and the strings of a
compiled file may hold any bytes, so a text is not a `String`: its characters are the valid
sequences in it, and each byte outside such a sequence stands alone.

## Main definitions

* `Text`: a sequence of bytes
* `Glyph`, `Text.glyphs`: the characters and stray bytes of a text, in order
* `Text.chars`: its characters, each stray byte read as U+FFFD
* `Text.ofString`: the text of a string
-/

namespace Toolchain

/-- A text: the bytes it is written with. -/
abbrev Text := List UInt8

namespace Text

/-- The text of a string, its UTF-8 encoding. -/
def ofString (s : String) : Text := s.toUTF8.toList

instance : Coe String Text := ⟨ofString⟩

/-- The text of a list of characters. -/
def ofChars (cs : List Char) : Text := ofString (String.ofList cs)

end Text

/-- One unit of a text: a character, or a byte that belongs to no valid sequence. -/
inductive Glyph where
  /-- A character. -/
  | char (c : Char)
  /-- A byte outside every valid sequence. -/
  | stray (b : UInt8)
  deriving DecidableEq, Repr

namespace Glyph

/-- The character a unit is read as: a stray byte is read as the replacement character. -/
def toChar : Glyph → Char
  | char c => c
  | stray _ => '\uFFFD'

/-- The bytes of a unit. -/
def bytes : Glyph → Text
  | char c => Text.ofChars [c]
  | stray b => [b]

end Glyph

namespace Text

/-- The six bits a continuation byte carries. -/
def continuation? (b : UInt8) : Option Nat :=
  if 0x80 ≤ b ∧ b ≤ 0xBF then some (b.toNat - 0x80) else none

/-- A character of `width` bytes, if its code point is one that needs that many bytes. -/
def wide? (code least width : Nat) : Option (Char × Nat) :=
  if h : code.isValidChar then
    if least ≤ code then some (Char.ofNatAux code h, width) else none
  else none

/-- The character at the head of a text, and how many bytes it takes. -/
def leading? : Text → Option (Char × Nat)
  | [] => none
  | b₀ :: rest =>
    if b₀ < 0x80 then wide? b₀.toNat 0 1
    else if b₀ < 0xC0 then none
    else if b₀ < 0xE0 then
      match rest with
      | b₁ :: _ => do
        let x₁ ← continuation? b₁
        wide? ((b₀.toNat - 0xC0) * 64 + x₁) 0x80 2
      | _ => none
    else if b₀ < 0xF0 then
      match rest with
      | b₁ :: b₂ :: _ => do
        let x₁ ← continuation? b₁
        let x₂ ← continuation? b₂
        wide? (((b₀.toNat - 0xE0) * 64 + x₁) * 64 + x₂) 0x800 3
      | _ => none
    else if b₀ < 0xF8 then
      match rest with
      | b₁ :: b₂ :: b₃ :: _ => do
        let x₁ ← continuation? b₁
        let x₂ ← continuation? b₂
        let x₃ ← continuation? b₃
        wide? ((((b₀.toNat - 0xF0) * 64 + x₁) * 64 + x₂) * 64 + x₃) 0x10000 4
      | _ => none
    else none

/-- The units of a text whose first `skip` bytes belong to a character already read. -/
def glyphsFrom : Nat → Text → List Glyph
  | _, [] => []
  | skip + 1, _ :: rest => glyphsFrom skip rest
  | 0, b :: rest =>
    match leading? (b :: rest) with
    | some (c, width) => .char c :: glyphsFrom (width - 1) rest
    | none => .stray b :: glyphsFrom 0 rest

/-- The units of a text in order. -/
def glyphs (t : Text) : List Glyph := glyphsFrom 0 t

/-- The characters of a text, each stray byte read as the replacement character. -/
def chars (t : Text) : List Char := t.glyphs.map Glyph.toChar

/-- Whether a text is valid UTF-8. -/
def isValid (t : Text) : Bool :=
  t.glyphs.all fun
    | .char _ => true
    | .stray _ => false

/-- The string of a text, each stray byte replaced. -/
def toStringLossy (t : Text) : String := String.ofList t.chars

/-- The digits of a byte in base sixteen. -/
def hexDigits (b : UInt8) : List Char :=
  [Nat.digitChar (b.toNat / 16), Nat.digitChar (b.toNat % 16)]

/-- A sequence of bytes in base sixteen, two lower-case digits a byte. -/
def toHex (t : Text) : String := String.ofList (t.flatMap hexDigits)

/-- The value of a digit in base sixteen. -/
def hexDigit? (c : Char) : Option Nat :=
  if '0' ≤ c ∧ c ≤ '9' then some (c.toNat - '0'.toNat)
  else if 'a' ≤ c ∧ c ≤ 'f' then some (c.toNat - 'a'.toNat + 10)
  else if 'A' ≤ c ∧ c ≤ 'F' then some (c.toNat - 'A'.toNat + 10)
  else none

/-- The bytes written by pairs of digits in base sixteen. -/
def ofHexDigits? : List Char → Option Text
  | [] => some []
  | a :: b :: rest => do
    let hi ← hexDigit? a
    let lo ← hexDigit? b
    let tail ← ofHexDigits? rest
    return UInt8.ofNat (hi * 16 + lo) :: tail
  | [_] => none

/-- The bytes of a string of hexadecimal digits. -/
def ofHex? (s : String) : Option Text := ofHexDigits? s.toList

/-- Texts joined with a separator between each two. -/
def join (separator : Text) (parts : List Text) : Text := List.intercalate separator parts

/-- A text cut at every occurrence of a byte; there is one more part than occurrences. -/
def splitAt (separator : UInt8) : Text → List Text
  | [] => [[]]
  | b :: rest =>
    if b = separator then [] :: splitAt separator rest
    else match splitAt separator rest with
      | [] => [[b]]
      | part :: parts => (b :: part) :: parts

/-- The lines of a text, cut at its newline characters. -/
def lines (t : Text) : List Text := t.splitAt '\n'.toUInt8

/-- Whether one text begins with another. -/
def startsWith (t start : Text) : Bool := start.isPrefixOf t

/-- Whether one text ends with another. -/
def endsWith (t tail : Text) : Bool := tail.isSuffixOf t

/-- A text padded on the right with spaces to at least `width` characters. -/
def padRight (width : Nat) (t : Text) : Text :=
  t ++ List.replicate (width - t.glyphs.length) ' '.toUInt8

/-- A text padded on the left to at least `width` characters. -/
def padLeft (width : Nat) (fill : Char) (t : Text) : Text :=
  List.replicate (width - t.glyphs.length) fill.toUInt8 ++ t

/-- Whether a character is white space, in any script. -/
def isSpace (c : Char) : Bool :=
  let n := c.toNat
  (9 ≤ n && n ≤ 13) || n == 0x20 || n == 0x85 || n == 0xA0 || n == 0x1680 ||
    (0x2000 ≤ n && n ≤ 0x200A) || n == 0x2028 || n == 0x2029 || n == 0x202F || n == 0x205F ||
    n == 0x3000

/-- Characters without the white space at both ends. -/
def trimChars (cs : List Char) : List Char :=
  ((cs.dropWhile isSpace).reverse.dropWhile isSpace).reverse

/-- Whether a unit is white space. -/
def isSpaceGlyph : Glyph → Bool
  | .char c => isSpace c
  | .stray _ => false

/-- A text without the white space at both ends. -/
def trim (t : Text) : Text :=
  (((t.glyphs.dropWhile isSpaceGlyph).reverse.dropWhile isSpaceGlyph).reverse).flatMap Glyph.bytes

/-- The first word of some units up to white space, and the words after it. -/
def wordsFrom : List Glyph → Text × List Text
  | [] => ([], [])
  | g :: gs =>
    let (word, words) := wordsFrom gs
    if isSpaceGlyph g then ([], if word.isEmpty then words else word :: words)
    else (g.bytes ++ word, words)

/-- The words of a text, with white space between them. -/
def words (t : Text) : List Text :=
  let (word, words) := wordsFrom t.glyphs
  if word.isEmpty then words else word :: words

/-- The decimal digits of a natural number. -/
def ofNat (n : Nat) : Text := ofString (Nat.repr n)

/-- The decimal digits of an integer, with a minus sign if it is negative. -/
def ofInt (n : Int) : Text :=
  if n < 0 then '-'.toUInt8 :: ofNat n.natAbs else ofNat n.natAbs

instance : Coe Nat Text := ⟨ofNat⟩

end Text

end Toolchain
