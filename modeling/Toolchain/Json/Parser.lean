import Toolchain.Json.Basic

/-!
# Reading JSON

A reader for the JSON data format. A string is read with its escapes resolved; an escaped surrogate
without its partner reads as the replacement character.

## Main definitions

* `Json.parse?`: the value that a text writes
-/

namespace Toolchain.Json

/-- A blank of the format. -/
def isSpace (c : Char) : Bool := c == ' ' || c == '\t' || c == '\n' || c == '\r'

/-- The characters after leading blanks. -/
def skipSpace (cs : List Char) : List Char := cs.dropWhile isSpace

/-- The number of four hexadecimal digits. -/
def unit? (a b c d : Char) : Option Nat := do
  let a ← Text.hexDigit? a
  let b ← Text.hexDigit? b
  let c ← Text.hexDigit? c
  let d ← Text.hexDigit? d
  return ((a * 16 + b) * 16 + c) * 16 + d

/-- The character of a code point, or the replacement character. -/
def charOfCode (n : Nat) : Char :=
  if h : n.isValidChar then Char.ofNatAux n h else '\uFFFD'

/-- The character that a letter names after a backslash. -/
def simpleEscape? : Char → Option Char
  | '"' => some '"'
  | '\\' => some '\\'
  | '/' => some '/'
  | 'b' => some '\x08'
  | 'f' => some '\x0C'
  | 'n' => some '\n'
  | 'r' => some '\r'
  | 't' => some '\t'
  | _ => none

/-- The character of a pair of surrogates. -/
def pairedChar? (high low : Nat) : Option Char :=
  if 0xD800 ≤ high ∧ high < 0xDC00 ∧ 0xDC00 ≤ low ∧ low < 0xE000 then
    some (charOfCode (0x10000 + (high - 0xD800) * 0x400 + (low - 0xDC00)))
  else none

/-- The character that two escapes of four digits write together. -/
def paired? (a b c d e f g h : Char) : Option Char := do
  pairedChar? (← unit? a b c d) (← unit? e f g h)

/-- A character before the string whose rest was read. -/
def before (c : Char) : Option (List Char × List Char) → Option (List Char × List Char)
  | some (tail, after) => some (c :: tail, after)
  | none => none

/-- Reads a string after its opening quote. -/
def stringTail : List Char → Option (List Char × List Char)
  | [] => none
  | '"' :: rest => some ([], rest)
  | '\\' :: 'u' :: a :: b :: c :: d :: '\\' :: 'u' :: e :: f :: g :: h :: rest =>
    match paired? a b c d e f g h with
    | some char => before char (stringTail rest)
    | none =>
      match unit? a b c d with
      | some code => before (charOfCode code) (stringTail ('\\' :: 'u' :: e :: f :: g :: h :: rest))
      | none => none
  | '\\' :: 'u' :: a :: b :: c :: d :: rest =>
    match unit? a b c d with
    | some code => before (charOfCode code) (stringTail rest)
    | none => none
  | '\\' :: c :: rest =>
    match simpleEscape? c with
    | some c => before c (stringTail rest)
    | none => none
  | c :: rest => if c.toNat < 0x20 then none else before c (stringTail rest)

/-- Reads a string with its quotes. -/
def stringToken : List Char → Option (List Char × List Char)
  | '"' :: rest => stringTail rest
  | _ => none

/-- Reads at least one digit. -/
def digits? (cs : List Char) : Option (List Char × List Char) :=
  let ds := cs.takeWhile Char.isDigit
  if ds.isEmpty then none else some (ds, cs.dropWhile Char.isDigit)

/-- Reads the digits before the point: a zero stands alone. -/
def wholePart? : List Char → Option (List Char × List Char)
  | '0' :: rest => some (['0'], rest)
  | cs => digits? cs

/-- Reads the digits after a point, if there is one. -/
def fraction? : List Char → Option (List Char × List Char)
  | '.' :: rest => (digits? rest).map fun (ds, after) => ('.' :: ds, after)
  | cs => some ([], cs)

/-- Reads an exponent, if there is one. -/
def exponent? : List Char → Option (List Char × List Char)
  | c :: rest =>
    if c = 'e' ∨ c = 'E' then
      match rest with
      | '+' :: more => (digits? more).map fun (ds, after) => (c :: '+' :: ds, after)
      | '-' :: more => (digits? more).map fun (ds, after) => (c :: '-' :: ds, after)
      | more => (digits? more).map fun (ds, after) => (c :: ds, after)
    else some ([], c :: rest)
  | [] => some ([], [])

/-- Reads a number. -/
def numberToken (cs : List Char) : Option (List Char × List Char) := do
  let (sign, cs) := match cs with
    | '-' :: rest => (['-'], rest)
    | rest => ([], rest)
  let (whole, cs) ← wholePart? cs
  let (fraction, cs) ← fraction? cs
  let (exponent, cs) ← exponent? cs
  return (sign ++ whole ++ fraction ++ exponent, cs)

mutual

/-- Reads a value after leading blanks, at most `n` levels and items deep. -/
def value : Nat → List Char → Option (Json × List Char)
  | 0, _ => none
  | n + 1, cs =>
    match skipSpace cs with
    | 'n' :: 'u' :: 'l' :: 'l' :: rest => some (null, rest)
    | 't' :: 'r' :: 'u' :: 'e' :: rest => some (bool true, rest)
    | 'f' :: 'a' :: 'l' :: 's' :: 'e' :: rest => some (bool false, rest)
    | '"' :: rest => do
      let (s, after) ← stringToken ('"' :: rest)
      return (string (Text.ofChars s), after)
    | '[' :: rest =>
      match skipSpace rest with
      | ']' :: after => some (array [], after)
      | inner => do
        let (vs, after) ← items n inner
        return (array vs, after)
    | '\x7b' :: rest =>
      match skipSpace rest with
      | '\x7d' :: after => some (object [], after)
      | inner => do
        let (ms, after) ← members n inner
        return (object ms, after)
    | rest => do
      let (literal, after) ← numberToken rest
      return (number (String.ofList literal), after)

/-- Reads the values of an array up to its closing bracket. -/
def items : Nat → List Char → Option (List Json × List Char)
  | 0, _ => none
  | n + 1, cs => do
    let (v, after) ← value n cs
    match skipSpace after with
    | ',' :: rest => do
      let (vs, after) ← items n rest
      return (v :: vs, after)
    | ']' :: rest => some ([v], rest)
    | _ => none

/-- Reads the members of an object up to its closing brace. -/
def members : Nat → List Char → Option (List (String × Json) × List Char)
  | 0, _ => none
  | n + 1, cs => do
    let (key, after) ← stringToken (skipSpace cs)
    match skipSpace after with
    | ':' :: rest => do
      let (v, after) ← value n rest
      match skipSpace after with
      | ',' :: rest => do
        let (ms, after) ← members n rest
        return ((String.ofList key, v) :: ms, after)
      | '\x7d' :: rest => some ([(String.ofList key, v)], rest)
      | _ => none
    | _ => none

end

/-- The value that a text writes, with nothing after it but blanks. -/
def parse? (t : Text) : Option Json :=
  let cs := t.chars
  match value (2 * cs.length + 2) cs with
  | some (v, rest) => if (skipSpace rest).isEmpty then some v else none
  | none => none

end Toolchain.Json
