import Toolchain.Text.Basic
import Toolchain.Text.Printable

/-!
# Quoted texts

The text of a value inside double quotes. A printable character stands for itself; the quote and
the backslash are written after a backslash; everything else is written as an escape, in the
shortest form that names it: a letter, two digits, four or eight. A stray byte is written with two
digits, so two different texts never have the same quoted form.

## Main definitions

* `Text.isPrintable`: whether a character is written as it is
* `Text.quoted`: the quoted form
-/

namespace Toolchain.Text

/-- Whether a character is printed as it is. -/
def isPrintable (c : Char) : Bool :=
  if c.toNat < 0x80 then 0x20 ≤ c.toNat && c.toNat < 0x7F else isWidePrintable c

/-- A number in base sixteen, with at least `width` digits. -/
def hexPadded (width n : Nat) : List Char :=
  let digits := Nat.toDigits 16 n
  List.replicate (width - digits.length) '0' ++ digits

/-- The letter that names a control character after a backslash. -/
def escapeLetter? : Char → Option Char
  | '\x07' => some 'a'
  | '\x08' => some 'b'
  | '\x0C' => some 'f'
  | '\n' => some 'n'
  | '\r' => some 'r'
  | '\t' => some 't'
  | '\x0B' => some 'v'
  | _ => none

/-- How one unit is written between the quotes. -/
def quotedGlyph : Glyph → List Char
  | .stray b => '\\' :: 'x' :: hexPadded 2 b.toNat
  | .char c =>
    if c = '"' ∨ c = '\\' then ['\\', c]
    else if isPrintable c then [c]
    else match escapeLetter? c with
      | some letter => ['\\', letter]
      | none =>
        if c.toNat < 0x20 ∨ c.toNat = 0x7F then '\\' :: 'x' :: hexPadded 2 c.toNat
        else if c.toNat < 0x10000 then '\\' :: 'u' :: hexPadded 4 c.toNat
        else '\\' :: 'U' :: hexPadded 8 c.toNat

/-- A text in double quotes, with escapes for what is not printable. -/
def quoted (t : Text) : Text :=
  ofChars ('"' :: (t.glyphs.flatMap quotedGlyph ++ ['"']))

end Toolchain.Text
