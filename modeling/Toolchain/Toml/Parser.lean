import Toolchain.Toml.Basic

/-!
# Reading TOML

Reads the expressions of a document, one a line.

## Main definitions

* `Toml.key`, `Toml.value`: keys and values
* `Toml.expression`: one expression
* `Toml.parse?`: all expressions of a document
-/

namespace Toolchain

namespace Toml

/-- A step that reads from the characters that are left. -/
abbrev Read (α : Type) := List Char → Option (α × List Char)

/-- Whether a character is a blank inside a line. -/
def isBlank (c : Char) : Bool := c == ' ' || c == '\t'

/-- The characters after some blanks. -/
def skipBlanks (cs : List Char) : List Char := cs.dropWhile isBlank

/-- Whether a character may stand in a string on one line. -/
def isInline (c : Char) : Bool := isAllowed c && c != '\n' && c != '\r'

/-- The characters after the end of a line. -/
def newline? : List Char → Option (List Char)
  | '\n' :: rest => some rest
  | '\r' :: '\n' :: rest => some rest
  | _ => none

/-- The characters from the end of a comment on. -/
def afterComment? : List Char → Option (List Char)
  | [] => some []
  | '\n' :: rest => some ('\n' :: rest)
  | '\r' :: '\n' :: rest => some ('\n' :: rest)
  | c :: rest => if isInline c then afterComment? rest else none

/-! ## Strings -/

/-- The character that hexadecimal digits write. -/
def codePoint? (digits : List Char) : Option Char := do
  let n ← digits.foldlM (fun n c => do return n * 16 + (← Text.hexDigit? c)) 0
  if h : n.isValidChar then some (Char.ofNatAux n h) else none

/-- The character that an escape of one letter writes. -/
def simpleEscape? : Char → Option Char
  | '"' => some '"'
  | '\\' => some '\\'
  | 'b' => some '\x08'
  | 'f' => some '\x0c'
  | 'n' => some '\n'
  | 'r' => some '\r'
  | 't' => some '\t'
  | 'e' => some '\x1b'
  | _ => none

/-- The character that an escape writes, after its backslash. -/
def escape : Read Char
  | 'u' :: a :: b :: c :: d :: rest => (codePoint? [a, b, c, d]).map (·, rest)
  | 'U' :: a :: b :: c :: d :: e :: f :: g :: h :: rest =>
    (codePoint? [a, b, c, d, e, f, g, h]).map (·, rest)
  | c :: rest => (simpleEscape? c).map (·, rest)
  | [] => none

/-- The rest of a string between double quotes, at most `bound` characters of it. -/
def basicString : (bound : Nat) → Read (List Char)
  | 0, _ => none
  | _ + 1, [] => none
  | _ + 1, '"' :: rest => some ([], rest)
  | bound + 1, '\\' :: rest => do
    let (c, rest) ← escape rest
    let (tail, rest) ← basicString bound rest
    return (c :: tail, rest)
  | bound + 1, c :: rest => do
    if !isInline c then none
    let (tail, rest) ← basicString bound rest
    return (c :: tail, rest)

/-- The rest of a string between single quotes. -/
def literalString : Read (List Char)
  | [] => none
  | '\'' :: rest => some ([], rest)
  | c :: rest => do
    if !isInline c then none
    let (tail, rest) ← literalString rest
    return (c :: tail, rest)

/-- The characters after the first of blanks and ends of lines that is something else. -/
def skipLines : List Char → List Char
  | '\r' :: '\n' :: rest => skipLines rest
  | c :: rest => if isBlank c || c == '\n' then skipLines rest else c :: rest
  | [] => []

/-- The characters after a backslash that ends a line, and after the blank lines below it. -/
def continuation? (cs : List Char) : Option (List Char) :=
  (newline? (skipBlanks cs)).map skipLines

/-- The end of a string of several lines: three quotes, before which up to two more may stand that
belong to the string. -/
def closing? (quote : Char) (cs : List Char) : Option (List Char × List Char) :=
  let quotes := cs.takeWhile (· == quote)
  if quotes.length < 3 then none
  else some (List.replicate (quotes.length - 3) quote, cs.dropWhile (· == quote))

/-- The rest of a string of several lines, at most `bound` characters of it. -/
def longString (quote : Char) (escapes : Bool) : (bound : Nat) → Read (List Char)
  | 0, _ => none
  | bound + 1, cs =>
    match closing? quote cs with
    | some (quotes, rest) => if quotes.length ≤ 2 then some (quotes, rest) else none
    | none =>
      match cs with
      | [] => none
      | '\r' :: '\n' :: rest => do
        let (tail, rest) ← longString quote escapes bound rest
        return ('\r' :: '\n' :: tail, rest)
      | c :: rest =>
        if escapes && c == '\\' then
          match continuation? rest with
          | some rest => longString quote escapes bound rest
          | none => do
            let (c, rest) ← escape rest
            let (tail, rest) ← longString quote escapes bound rest
            return (c :: tail, rest)
        else do
          if !isAllowed c || c == '\r' then none
          let (tail, rest) ← longString quote escapes bound rest
          return (c :: tail, rest)

/-- The characters after a newline, if there is one at once. -/
def skipFirstNewline (cs : List Char) : List Char := (newline? cs).getD cs

/-- A string of any form. -/
def string : Read (List Char)
  | '"' :: '"' :: '"' :: rest => longString '"' true (rest.length + 1) (skipFirstNewline rest)
  | '\'' :: '\'' :: '\'' :: rest => longString '\'' false (rest.length + 1) (skipFirstNewline rest)
  | '"' :: rest => basicString (rest.length + 1) rest
  | '\'' :: rest => literalString rest
  | _ => none

/-! ## Keys -/

/-- Whether a character may stand in a name without quotes. -/
def isBareKeyChar (c : Char) : Bool := c.isAlphanum || c == '-' || c == '_'

/-- One name of a key. -/
def simpleKey : Read Text
  | '"' :: rest => (basicString (rest.length + 1) rest).map fun (s, rest) => (Text.ofChars s, rest)
  | '\'' :: rest => (literalString rest).map fun (s, rest) => (Text.ofChars s, rest)
  | cs =>
    let name := cs.takeWhile isBareKeyChar
    if name.isEmpty then none else some (Text.ofChars name, cs.dropWhile isBareKeyChar)

/-- The names after the first one of a key, at most `bound`. -/
def keyTail : (bound : Nat) → Read Key
  | 0, cs => some ([], cs)
  | bound + 1, cs =>
    match skipBlanks cs with
    | '.' :: rest => do
      let (name, rest) ← simpleKey (skipBlanks rest)
      let (names, rest) ← keyTail bound rest
      return (name :: names, rest)
    | rest => some ([], rest)

/-- A key, and the blanks after it. -/
def key : Read Key := fun cs => do
  let (name, rest) ← simpleKey cs
  let (names, rest) ← keyTail rest.length rest
  return (name :: names, rest)

/-! ## Values -/

/-- Whether a character may stand in a date or a time. -/
def isDateChar (c : Char) : Bool := c.isDigit || ['-', 'T', 't', ':', '.', '+', 'Z', 'z'].contains c

/-- The characters after a date; one space is part of it if a digit follows. -/
def afterDate (cs : List Char) : List Char :=
  match cs.dropWhile isDateChar with
  | ' ' :: c :: rest => if c.isDigit then (rest.drop 1).dropWhile isDateChar else ' ' :: c :: rest
  | rest => rest

/-- Whether characters start as a date or a time does. -/
def isDateStart (cs : List Char) : Bool :=
  let digits := cs.takeWhile Char.isDigit
  match digits.length, cs.drop digits.length with
  | 2, ':' :: _ => true
  | 4, '-' :: _ => true
  | _, _ => false

/-- The digits of a number in a base other than ten. -/
def isDigitOf : Char → Option (Char → Bool)
  | 'x' => some fun c => (Text.hexDigit? c).isSome || c == '_'
  | 'o' => some fun c => ('0' ≤ c && c ≤ '7') || c == '_'
  | 'b' => some fun c => c == '0' || c == '1' || c == '_'
  | _ => none

/-- Whether a character may stand in a decimal number. -/
def isNumberChar (c : Char) : Bool := c.isDigit || ['+', '-', '_', '.', 'e', 'E'].contains c

/-- Whether a character makes a number a floating point number. -/
def isFloatChar (c : Char) : Bool := c == '.' || c == 'e' || c == 'E'

/-- A decimal number. -/
def decimalNumber : Read Value := fun cs =>
  let digits := cs.takeWhile isNumberChar
  match cs.drop digits.length with
  | 'i' :: 'n' :: 'f' :: rest => some (.float, rest)
  | 'n' :: 'a' :: 'n' :: rest => some (.float, rest)
  | 'i' :: _ => none
  | 'n' :: _ => none
  | rest =>
    if digits.isEmpty then none
    else some (if digits.any isFloatChar then .float else .integer digits, rest)

/-- A number. After a zero only a mark for a base, a point or an exponent can follow. -/
def number : Read Value := fun cs =>
  match cs with
  | '0' :: c :: d :: rest =>
    if isFloatChar c then decimalNumber cs
    else match isDigitOf c with
      | some isDigit =>
        let digits := (d :: rest).takeWhile isDigit
        some (.integer ('0' :: c :: digits), (d :: rest).drop digits.length)
      | none => some (.integer ['0'], c :: d :: rest)
  | _ => decimalNumber cs

/-- The characters after blanks, comments and ends of lines, at most `bound` of those. -/
def skipComments : (bound : Nat) → List Char → Option (List Char)
  | 0, cs => some cs
  | bound + 1, cs => do
    let cs ← match skipBlanks cs with
      | '#' :: rest => afterComment? rest
      | cs => some cs
    match cs with
    | '\n' :: _ | '\r' :: _ => skipComments bound (← newline? cs)
    | cs => some cs

/-- The items of an array after its bracket. -/
def items (value : Read Value) : (bound : Nat) → (first : Bool) → Read (List Value)
  | 0, _, _ => none
  | bound + 1, first, cs => do
    let cs ← skipComments (cs.length + 1) cs
    let cs ← match cs, first with
      | ']' :: _, _ => some cs
      | ',' :: rest, false => skipComments (rest.length + 1) rest
      | _, true => some cs
      | _, false => none
    match cs with
    | ']' :: rest => return ([], rest)
    | cs =>
      let (v, cs) ← value cs
      let (vs, cs) ← items value bound false cs
      return (v :: vs, cs)

/-- A key with its value. -/
def pair (value : Read Value) : Read (Key × Value) := fun cs => do
  let (k, cs) ← key cs
  match skipBlanks cs with
  | '=' :: rest =>
    let (v, rest) ← value (skipBlanks rest)
    return ((k, v), rest)
  | _ => none

/-- The entries of an inline table after its brace. -/
def entries (value : Read Value) : (bound : Nat) → (first : Bool) → Read (List (Key × Value))
  | 0, _, _ => none
  | bound + 1, first, cs => do
    match skipBlanks cs with
    | '\x7d' :: rest => return ([], rest)
    | cs =>
      let cs ← match cs, first with
        | ',' :: rest, false => some (skipBlanks rest)
        | _, true => some cs
        | _, false => none
      let (e, cs) ← pair value cs
      let (es, cs) ← entries value bound false cs
      return (e :: es, cs)

/-- A value in which arrays and tables are nested at most `depth` deep. -/
def value : (depth : Nat) → Read Value
  | 0, _ => none
  | depth + 1, cs =>
    match cs with
    | '"' :: _ | '\'' :: _ => (string cs).map fun (s, rest) => (.string (Text.ofChars s), rest)
    | 't' :: 'r' :: 'u' :: 'e' :: rest => some (.bool true, rest)
    | 'f' :: 'a' :: 'l' :: 's' :: 'e' :: rest => some (.bool false, rest)
    | '[' :: rest =>
      (items (value depth) (rest.length + 1) true rest).map fun (vs, rest) => (.array vs, rest)
    | '\x7b' :: rest =>
      (entries (value depth) (rest.length + 1) true rest).map fun (es, rest) => (.table es, rest)
    | _ => if isDateStart cs then some (.date, afterDate cs) else number cs

/-! ## Documents -/

/-- The header of a table after its bracket. -/
def header : Read Expression
  | '[' :: rest => do
    let (k, cs) ← key (skipBlanks rest)
    match skipBlanks cs with
    | ']' :: ']' :: rest => return (.arrayTable k, rest)
    | _ => none
  | cs => do
    let (k, cs) ← key (skipBlanks cs)
    match skipBlanks cs with
    | ']' :: rest => return (.table k, rest)
    | _ => none

/-- An expression, if the line has one, with the comment after it. -/
def expression : Read (Option Expression) := fun cs =>
  match skipBlanks cs with
  | [] => some (none, [])
  | '#' :: rest => (afterComment? rest).map (none, ·)
  | '\n' :: rest => some (none, '\n' :: rest)
  | '\r' :: rest => some (none, '\r' :: rest)
  | cs => do
    let (e, cs) ← match cs with
      | '[' :: rest => header rest
      | cs => (pair (value (cs.length + 1)) cs).map fun ((k, v), rest) =>
        (Expression.pair k v, rest)
    match skipBlanks cs with
    | '#' :: rest => (afterComment? rest).map (some e, ·)
    | cs => some (some e, cs)

/-- The expressions after the first line, at most `bound` lines of them. -/
def lines : (bound : Nat) → List Char → Option (List Expression)
  | 0, _ => some []
  | bound + 1, cs => do
    if cs.isEmpty then return []
    let cs ← newline? cs
    let (e, cs) ← expression cs
    return e.toList ++ (← lines bound cs)

/-- The expressions of a document, which has to be valid UTF-8. -/
def parse? (document : Text) : Option (List Expression) := do
  if !document.isValid then none
  let (e, cs) ← expression document.chars
  return e.toList ++ (← lines (cs.length + 1) cs)

end Toml

end Toolchain
