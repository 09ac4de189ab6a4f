import Toolchain.Parser.Basic

/-!
# The inside of f-strings

An f-string is a sequence of literal parts and replacement fields in braces; a doubled brace stands
for itself. A field is an expression, a conversion after `!` and a format specification after `:`,
which is written like an f-string itself.

## Main definitions

* `FString.fieldEnd?`: a field and the characters after its closing brace
* `FString.splitField`: the expression of a field and what follows it
* `FString.Field.ofChars?`: the parts of a field
-/

namespace Toolchain.FString

/-- A quote. -/
def isQuote (c : Char) : Bool := c == '\'' || c == '"'

/-- A bracket that opens. -/
def isOpening (c : Char) : Bool := c == '\x7b' || c == '[' || c == '('

/-- A bracket that closes. -/
def isClosing (c : Char) : Bool := c == '\x7d' || c == ']' || c == ')'

/-- Splits at the brace that closes a field, `depth` brackets being open and `quote` being the quote
that is open. Brackets inside quotes do not count, and the bracket that closes the field has to be a
brace. -/
def fieldEnd? (depth : Nat) (quote : Option Char) : List Char → Option (List Char × List Char)
  | [] => none
  | c :: rest =>
    let within (depth : Nat) (quote : Option Char) :=
      (fieldEnd? depth quote rest).map fun (field, after) => (c :: field, after)
    match quote with
    | some q => within depth (if c = q then none else some q)
    | none =>
      if isQuote c then within depth (some c)
      else if isOpening c then within (depth + 1) none
      else if isClosing c then
        if depth = 1 then (if c = '\x7d' then some ([], rest) else none)
        else within (depth - 1) none
      else within depth none

/-- Splits a field at the first `!` or `:` outside brackets and quotes; `!=` is no mark. -/
def splitField (depth : Nat) (quote : Option Char) :
    List Char → List Char × Option (Char × List Char)
  | [] => ([], none)
  | c :: rest =>
    let within (depth : Nat) (quote : Option Char) :=
      let (before, mark) := splitField depth quote rest
      (c :: before, mark)
    match quote with
    | some q => within depth (if c = q then none else some q)
    | none =>
      if isQuote c then within depth (some c)
      else if isOpening c then within (depth + 1) none
      else if isClosing c then within (depth - 1) none
      else if depth = 0 ∧ c = ':' then ([], some (c, rest))
      else if depth = 0 ∧ c = '!' ∧ rest.head? ≠ some '=' then ([], some (c, rest))
      else within depth none

/-- A replacement field. -/
structure Field where
  /-- The text of the expression, without blanks around it. -/
  expr : List Char
  conversion : Option Conversion
  /-- The text of the format specification. -/
  spec : Option (List Char)
  deriving DecidableEq, Repr

namespace Field

/-- The parts of a field, if it has an expression and a well-formed conversion. -/
def ofChars? (cs : List Char) : Option Field :=
  let (before, mark) := splitField 0 none cs
  let expr := Text.trimChars before
  if expr.isEmpty then none
  else match mark with
    | none => some ⟨expr, none, none⟩
    | some ('!', letter :: rest) =>
      match Conversion.ofLetter? letter, rest with
      | some conversion, [] => some ⟨expr, some conversion, none⟩
      | some conversion, ':' :: spec => some ⟨expr, some conversion, some spec⟩
      | _, _ => none
    | some ('!', []) => none
    | some (_, spec) => some ⟨expr, none, some spec⟩

end Field

/-- One step through the inside of an f-string. -/
inductive Piece where
  /-- A literal character. -/
  | literal (c : Char) (rest : List Char)
  /-- A replacement field. -/
  | field (inside rest : List Char)
  /-- A brace without its partner. -/
  | stray

/-- The first piece of the inside of an f-string. -/
def next? : List Char → Option Piece
  | [] => none
  | '\x7b' :: '\x7b' :: rest => some (.literal '\x7b' rest)
  | '\x7d' :: '\x7d' :: rest => some (.literal '\x7d' rest)
  | '\x7d' :: _ => some .stray
  | '\x7b' :: rest =>
    match fieldEnd? 1 none rest with
    | some (inside, after) => some (.field inside after)
    | none => some .stray
  | c :: rest => some (.literal c rest)

end Toolchain.FString
