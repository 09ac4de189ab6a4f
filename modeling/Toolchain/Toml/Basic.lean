import Toolchain.Octets
import Toolchain.Text.Basic

/-!
# TOML documents

A document is a sequence of expressions: the headers of tables, and keys with values. A number or a
date is kept as it is written, because it is looked at only where a value is asked for.

No key of a document may be defined twice. A table that has a header may not have another one, and
may not be extended by dotted keys elsewhere; a table that comes about by dotted keys is closed at
the next header.

## Main definitions

* `Toml.Value`, `Toml.Expression`: what a document holds
* `Toml.Value.integer?`: the integer that a value writes
* `Toml.quoted`: a string as it is written
* `Toml.Keys`: the keys defined so far
* `Toml.Keys.pair?`, `Toml.Keys.table?`, `Toml.Keys.arrayTable?`: the keys after one more
  expression, if it may stand there
-/

namespace Toolchain

/-! ## Documents -/

namespace Toml

/-- A key: the names between its dots. -/
abbrev Key := List Text

/-- A value. -/
inductive Value where
  | string (t : Text)
  /-- An integer as it is written. -/
  | integer (digits : List Char)
  | float
  | bool (b : Bool)
  /-- A date, a time or both. -/
  | date
  | array (items : List Value)
  | table (entries : List (Key × Value))

/-- An expression of a document. -/
inductive Expression where
  /-- A key with its value. -/
  | pair (key : Key) (value : Value)
  /-- The header of a table. -/
  | table (key : Key)
  /-- The header of the next table of an array. -/
  | arrayTable (key : Key)

/-- Digits without the underscores between them; an underscore has to stand between digits. -/
def withoutUnderscores? (digits : List Char) : Option (List Char) :=
  if digits.head? = some '_' || digits.getLast? = some '_' then none
  else if (digits.zip (digits.drop 1)).contains ('_', '_') then none
  else some (digits.filter (· != '_'))

/-- The number that digits write in a base. -/
def natural? (base : Nat) (digits : List Char) : Option Nat := do
  let digits ← withoutUnderscores? digits
  if digits.isEmpty then none
  digits.foldlM (fun n c => do
    let d ← Text.hexDigit? c
    if d < base then return n * base + d else none) 0

/-- The integer that decimal digits write, without a zero in front of others. -/
def decimal? (digits : List Char) : Option Nat := do
  let n ← natural? 10 digits
  let written ← withoutUnderscores? digits
  if written.length > 1 ∧ written.head? = some '0' then none else return n

/-- An integer, if it has at most sixty-four bits. -/
def int64? (n : Int) : Option Int := if isInt64 n then some n else none

/-- The integer that a value writes. -/
def Value.integer? : Value → Option Int
  | .integer digits => do
    let n : Int ←
      match digits with
      | '0' :: 'x' :: c :: rest => (natural? 16 (c :: rest)).map Int.ofNat
      | '0' :: 'o' :: c :: rest => (natural? 8 (c :: rest)).map Int.ofNat
      | '0' :: 'b' :: c :: rest => (natural? 2 (c :: rest)).map Int.ofNat
      | '+' :: rest => (decimal? rest).map Int.ofNat
      | '-' :: rest => (decimal? rest).map fun n => -(n : Int)
      | digits => (decimal? digits).map Int.ofNat
    int64? n
  | _ => none

/-- The string of a value. -/
def Value.string? : Value → Option Text
  | .string t => some t
  | _ => none

/-- The truth value of a value. -/
def Value.bool? : Value → Option Bool
  | .bool b => some b
  | _ => none

/-- Whether a byte may stand in a document other than in an escape: no control character but the tab
and those that end lines. -/
def isAllowed (c : Char) : Bool :=
  c == '\t' || c == '\n' || c == '\r' || (' ' ≤ c && c != '\x7f')

/-- How a character is written between double quotes. -/
def escapeChar (c : Char) : List Char :=
  match c with
  | '\\' => ['\\', '\\']
  | '"' => ['\\', '"']
  | '\x08' => ['\\', 'b']
  | '\x0c' => ['\\', 'f']
  | '\n' => ['\\', 'n']
  | '\r' => ['\\', 'r']
  | '\t' => ['\\', 't']
  | c =>
    if isAllowed c then [c]
    else ['\\', 'u', '0', '0', Nat.digitChar (c.toNat / 16), (Nat.digitChar (c.toNat % 16)).toUpper]

/-- A string as it is written: between single quotes if it can be. -/
def quoted (t : Text) : Text :=
  if t.chars.all fun c => c != '\'' && c != '\r' && c != '\n' && isAllowed c then
    "'" ++ t ++ "'"
  else "\"" ++ Text.ofChars (t.chars.flatMap escapeChar) ++ "\""

end Toml

/-! ## Keys that are defined once -/

namespace Toml

/-- What a key stands for. -/
inductive KeyKind where
  | value
  | table
  | arrayTable
  deriving DecidableEq, Repr

/-- A key that is defined. -/
structure Defined where
  path : Key
  kind : KeyKind
  /-- Whether the table has a header, or is closed. -/
  closed : Bool
  /-- Whether the table comes about by a dotted key. -/
  dotted : Bool
  deriving DecidableEq, Repr

/-- The keys defined so far. -/
structure Keys where
  defined : List Defined := []
  /-- The table that keys without a header belong to. -/
  current : Key := []

namespace Keys

/-- The entry of a key. -/
def find? (k : Keys) (path : Key) : Option Defined := k.defined.find? fun d => d.path == path

/-- Adds an entry, instead of the one for the same key. -/
def put (k : Keys) (d : Defined) : Keys :=
  { k with defined := d :: k.defined.filter fun e => e.path != d.path }

/-- Whether a key lies below another one. -/
def isBelow (path above : Key) : Bool := above.isPrefixOf path && path != above

/-- Closes the tables below the current one that came about by dotted keys. -/
def close (k : Keys) : Keys :=
  { k with defined := k.defined.map fun d =>
      if d.dotted && isBelow d.path k.current then { d with closed := true, dotted := false }
      else d }

/-- Defines the tables above the last name of a header. -/
def above? (k : Keys) (path : Key) : List Text → Option (Keys × Key)
  | [] => some (k, path)
  | name :: names =>
    let path := path ++ [name]
    match k.find? path with
    | none => above? (k.put ⟨path, .table, false, false⟩) path names
    | some d => if d.kind = .value then none else above? k path names

/-- The keys after the header of a table. -/
def table? (k : Keys) (key : Key) : Option Keys := do
  let last ← key.getLast?
  let (k, path) ← k.close.above? [] key.dropLast
  let path := path ++ [last]
  match k.find? path with
  | none => return { k.put ⟨path, .table, true, false⟩ with current := path }
  | some d =>
    if d.kind ≠ .table || d.closed then none
    else return { k.put { d with closed := true } with current := path }

/-- The keys after the header of a table of an array. -/
def arrayTable? (k : Keys) (key : Key) : Option Keys := do
  let last ← key.getLast?
  let (k, path) ← k.close.above? [] key.dropLast
  let path := path ++ [last]
  match k.find? path with
  | none => return { k.put ⟨path, .arrayTable, true, false⟩ with current := path }
  | some d =>
    if d.kind ≠ .arrayTable then none
    else return { k with
      defined := k.defined.filter fun e => !isBelow e.path path
      current := path }

/-- Defines a key below a table. -/
def define? (k : Keys) (path : Key) : List Text → Option Keys
  | [] => none
  | name :: names =>
    let path := path ++ [name]
    match k.find? path, names with
    | none, [] => some (k.put ⟨path, .value, false, true⟩)
    | none, names => define? (k.put ⟨path, .table, false, true⟩) path names
    | some _, [] => none
    | some d, names => if d.kind ≠ .table || d.closed then none else define? k path names

mutual

/-- Whether no key is defined twice inside a value. -/
def isSound : Value → Bool
  | .array items => areSound items
  | .table entries => entriesSound {} entries
  | _ => true

/-- Whether no key is defined twice inside any of some values. -/
def areSound : List Value → Bool
  | [] => true
  | v :: vs => isSound v && areSound vs

/-- Whether no key is defined twice among entries and inside their values. -/
def entriesSound (k : Keys) : List (Key × Value) → Bool
  | [] => true
  | (key, v) :: rest =>
    match k.define? [] key with
    | some k => isSound v && entriesSound k rest
    | none => false

end

/-- The keys after a key with its value. -/
def pair? (k : Keys) (key : Key) (v : Value) : Option Keys := do
  let k ← k.define? k.current key
  if isSound v then return k else none

end Keys

end Toml

end Toolchain
