import Toolchain.Decimal.Shortest
import Toolchain.Tree.Basic

/-!
# Expressions as text

Constants are written in a program so that reading them gives the same constants.

Operators have no precedence: they are read from left to right. So parentheses are needed only
around an operator or a lambda on the right of another operator, around a left operand that the
reader would go on with, and around what is followed by an attribute, a subscript or arguments
without being an atom.

An f-string is read as a sum of its parts, and such a sum is written as an f-string again.

## Main definitions

* `escape`: the content of a string between quotes
* `docstring`: a string over several lines
* `literal`: a constant
* `Place`: where an expression stands
* `needsParens`: whether an expression needs parentheses in a place
* `isFString`: whether an expression is the sum of the parts of an f-string
* `bare`, `content`: an expression without parentheses, and the inside of an f-string
* `expr`: an expression in a place
-/

namespace Toolchain

/-! ## Literals -/

namespace Format

/-- How a character is written in a string between the given quotes. -/
def escapeChar (quote c : Char) : List Char :=
  match c with
  | '\\' => ['\\', '\\']
  | '\n' => ['\\', 'n']
  | '\t' => ['\\', 't']
  | '\r' => ['\\', 'r']
  | '\x00' => ['\\', '0']
  | c => if c = quote then ['\\', c] else [c]

/-- The content of a string between the given quotes. -/
def escape (quote : Char) (cs : List Char) : List Char := cs.flatMap (escapeChar quote)

/-- How a character is written in a string over several lines. -/
def docstringChar (c : Char) : List Char :=
  match c with
  | '\\' => ['\\', '\\']
  | '"' => ['\\', '"']
  | '\r' => ['\\', 'r']
  | '\x00' => ['\\', '0']
  | c => [c]

/-- A string over several lines, in which newlines stand as they are. -/
def docstring (cs : List Char) : List Char :=
  ['"', '"', '"'] ++ cs.flatMap docstringChar ++ ['"', '"', '"']

/-- A number in decimal digits, with a point. -/
def float (x : Binary64) : List Char :=
  let digits := x.positional.toList
  if digits.contains '.' then digits else digits ++ ['.', '0']

/-- An integer in decimal digits. -/
def integer (n : Int) : List Char :=
  if n < 0 then '-' :: Nat.toDigits 10 n.natAbs else Nat.toDigits 10 n.natAbs

/-- A constant. -/
def literal : Literal → List Char
  | .none => "None".toList
  | .bool true => "True".toList
  | .bool false => "False".toList
  | .int n => integer n.toInt
  | .float x => float x
  | .str s => ['\''] ++ escape '\'' s.toList ++ ['\'']

end Format

/-! ## Operators and operands -/

namespace Format

variable {α : Type}

/-- Where an expression stands. -/
inductive Place where
  /-- A whole line, on which a tuple needs no parentheses. -/
  | top
  /-- A replacement field. -/
  | field
  /-- An argument, an element or a condition. -/
  | element
  /-- Before what may be a colon. -/
  | colon
  /-- On the left of an operator. -/
  | left
  /-- On the right of an operator. -/
  | operand
  /-- Before an attribute, a subscript or arguments. -/
  | suffix
  deriving DecidableEq, Repr

/-- A part of an f-string. -/
inductive FStringPart where
  | text
  | field
  deriving DecidableEq, Repr

/-- Which part of an f-string an expression can be: a text that is not empty, or a field. -/
def part? : Expr α → Option FStringPart
  | .formatted .. => some .field
  | .constant _ (.str s) => if s.isEmpty then none else some .text
  | _ => none

/-- The parts of a sum of parts, the last one first. -/
def parts? : Expr α → Option (List FStringPart)
  | .binOp _ left .add right =>
    match part? right with
    | some p => (parts? left).map (p :: ·)
    | none => none
  | e => (part? e).map ([·])

/-- Whether two texts stand next to each other. -/
def hasTextPair : List FStringPart → Bool
  | .text :: .text :: _ => true
  | _ :: rest => hasTextPair rest
  | [] => false

/-- Whether an expression is the sum of the parts of an f-string: at least one field, and no two
texts next to each other. -/
def isFString (e : Expr α) : Bool :=
  match parts? e with
  | some parts => parts.contains .field && !hasTextPair parts
  | none => false

/-- Whether an expression needs parentheses in a place. -/
def needsParens (place : Place) : Expr α → Bool
  | .tuple _ elts _ => (place ≠ .top && place ≠ .field) || elts.length < 2
  | .lambda .. => place ≠ .top && place ≠ .element
  | .binOp m left op right =>
    !isFString (.binOp m left op right) && (place = .operand || place = .suffix)
  | .boolOp .. | .compare .. => place = .operand || place = .suffix
  | .unaryOp .. => place = .suffix
  | .constant _ (.int _) | .constant _ (.float _) => place = .suffix
  | _ => false

/-- A text in parentheses. -/
def parens (s : List Char) : List Char := '(' :: s ++ [')']

/-- The text of an expression in a place, given its text without parentheses. -/
def inPlace (place : Place) (e : Expr α) (s : List Char) : List Char :=
  if needsParens place e then parens s else s

/-- The left operand of a connective; one with the same connective has parentheses. -/
def leftOfBool (op : BoolOp) (e : Expr α) (s : List Char) : List Char :=
  match e with
  | .boolOp _ inner _ => if inner = op then parens s else inPlace .left e s
  | _ => inPlace .left e s

/-- The left operand of a comparison; another comparison has parentheses. -/
def leftOfCompare (e : Expr α) (s : List Char) : List Char :=
  match e with
  | .compare .. => parens s
  | _ => inPlace .left e s

/-- An operator between its operands. -/
def operator (spaced : Bool) (symbol : String) : List Char :=
  if spaced then ' ' :: symbol.toList ++ [' '] else symbol.toList

/-- A comparison between its operands; a word always stands between spaces. -/
def comparison (spaced : Bool) (op : CompareOp) : List Char :=
  match op with
  | .is | .isNot | .isIn | .notIn => operator true op.symbol
  | _ => operator spaced op.symbol

/-- An operator before its operand. -/
def unary : UnaryOp → List Char
  | .invert => ['~']
  | .not => "not ".toList
  | .plus => ['+']
  | .minus => ['-']

/-- Texts with commas between them. -/
def commas (parts : List (List Char)) : List Char := List.intercalate [',', ' '] parts

/-- Parameters; the defaults belong to the last of the plain ones. -/
def parameters (params : List (Param α)) (defaults : List (List Char))
    (vararg kwarg : Option (Param α)) : List Char :=
  let plain := params.length - defaults.length
  let names := params.map fun p => p.name.toList
  commas (
    names.take plain ++ (names.drop plain).zipWith (fun n d => n ++ '=' :: d) defaults ++
    (vararg.toList.map fun p => '*' :: p.name.toList) ++
    (kwarg.toList.map fun p => '*' :: '*' :: p.name.toList))

/-- The elements of a tuple without parentheses; a single one has a comma after it. -/
def elements : List (List Char) → List Char
  | [s] => s ++ [',']
  | parts => commas parts

/-- An f-string with the given content. -/
def fstring (content : List Char) : List Char := 'f' :: '"' :: escape '"' content ++ ['"']

/-- A text inside an f-string: braces are doubled. -/
def fstringText (cs : List Char) : List Char :=
  cs.flatMap fun c => if c = '\x7b' ∨ c = '\x7d' then [c, c] else [c]

/-- A replacement field, given the texts of its value and of its format. -/
def replacement (value : Expr α) (text : List Char) (conversion : Option Conversion)
    (spec : Option (List Char)) : List Char :=
  let text := match value with
    | .lambda .. => parens text
    | _ => text
  let text := if text.head? = some '\x7b' then ' ' :: text else text
  let conversion := match conversion with
    | some c => ['!', c.letter]
    | none => []
  let spec := match spec with
    | some s => ':' :: s
    | none => []
  '\x7b' :: text ++ conversion ++ spec ++ ['\x7d']

/-- The constituents of a slice. -/
def sliceText (lower upper : List Char) (step : Option (List Char)) : List Char :=
  lower ++ ':' :: upper ++ (match step with
    | some s => ':' :: s
    | none => [])

/-- An index; the elements of a tuple stand there without parentheses. -/
def indexText (value : Expr α) (s : List Char) : List Char :=
  match value with
  | .tuple _ (_ :: _) _ => s
  | _ => inPlace .element value s

mutual

/-- An expression without parentheses around it. -/
def bare (spaced : Bool) : Expr α → List Char
  | .boolOp _ op values =>
    match values with
    | [] => []
    | v :: vs => leftOfBool op v (bare spaced v) ++ operands spaced (operator true op.symbol) vs
  | .binOp m left op right =>
    if isFString (.binOp m left op right) then
      fstring (content spaced true left ++ content spaced false right)
    else
      inPlace .left left (bare spaced left) ++ operator spaced op.symbol ++
        inPlace .operand right (bare spaced right)
  | .unaryOp _ op operand => unary op ++ inPlace .operand operand (bare spaced operand)
  | .lambda _ ⟨params, defaults, vararg, kwarg⟩ body =>
    let params := parameters params (listed spaced .element defaults) vararg kwarg
    "lambda".toList ++ (if params.isEmpty then [] else ' ' :: params) ++ [':', ' '] ++
      inPlace .element body (bare spaced body)
  | .dict _ items => '\x7b' :: commas (dictItems spaced items) ++ ['\x7d']
  | .compare _ left rest => leftOfCompare left (bare spaced left) ++ comparisons spaced rest
  | .call _ func args keywords =>
    inPlace .suffix func (bare spaced func) ++
      parens (commas (listed spaced .element args ++ keywordArgs spaced keywords))
  | .constant _ value => literal value
  | .attr _ value name _ => inPlace .suffix value (bare spaced value) ++ '.' :: name.toList
  | .subscript _ value slice _ =>
    inPlace .suffix value (bare spaced value) ++ '[' ::
      inPlace .element slice (bare spaced slice) ++
      [']']
  | .name _ id _ => id.toList
  | .list _ elts _ => '[' :: commas (listed spaced .element elts) ++ [']']
  | .tuple _ elts _ => elements (listed spaced .element elts)
  | .slice _ lower upper step =>
    sliceText ((optional spaced lower).getD []) ((optional spaced upper).getD [])
      (optional spaced step)
  | .index _ value => indexText value (bare spaced value)
  | .formatted _ value conversion spec =>
    fstring (replacement value (inPlace .field value (bare spaced value)) conversion
      (optionalContent spaced spec))

/-- The inside of an f-string: the parts of a sum. A part that is itself a sum, which no f-string
has, is left out. -/
def content (spaced : Bool) (sum : Bool) : Expr α → List Char
  | .binOp _ left _ right =>
    if sum then content spaced true left ++ content spaced false right else []
  | .constant _ (.str s) => fstringText s.toList
  | .formatted _ value conversion spec =>
    replacement value (inPlace .field value (bare spaced value)) conversion
      (optionalContent spaced spec)
  | _ => []

/-- The inside of a format. -/
def optionalContent (spaced : Bool) : Option (Expr α) → Option (List Char)
  | none => none
  | some e => some (content spaced true e)

/-- A bound of a slice. -/
def optional (spaced : Bool) : Option (Expr α) → Option (List Char)
  | none => none
  | some e => some (inPlace .colon e (bare spaced e))

/-- Expressions in a place. -/
def listed (spaced : Bool) (place : Place) : List (Expr α) → List (List Char)
  | [] => []
  | e :: es => inPlace place e (bare spaced e) :: listed spaced place es

/-- Operands on the right of operators, each after its operator. -/
def operands (spaced : Bool) (symbol : List Char) : List (Expr α) → List Char
  | [] => []
  | e :: es => symbol ++ inPlace .operand e (bare spaced e) ++ operands spaced symbol es

/-- The operands of comparisons, each after its operator. -/
def comparisons (spaced : Bool) : List (CompareOp × Expr α) → List Char
  | [] => []
  | (op, e) :: rest =>
    comparison spaced op ++ inPlace .operand e (bare spaced e) ++ comparisons spaced rest

/-- The items of a dictionary. -/
def dictItems (spaced : Bool) : List (Expr α × Expr α) → List (List Char)
  | [] => []
  | (key, value) :: rest =>
    (inPlace .colon key (bare spaced key) ++ ':' :: ' ' ::
      inPlace .element value (bare spaced value)) :: dictItems spaced rest

/-- Keyword arguments. -/
def keywordArgs (spaced : Bool) : List (KeywordArg α (Expr α)) → List (List Char)
  | [] => []
  | ⟨_, name, value⟩ :: rest =>
    let value := inPlace .element value (bare spaced value)
    (match name with
      | some name => name.toList ++ '=' :: value
      | none => '*' :: '*' :: value) :: keywordArgs spaced rest

end

/-- An expression in a place. -/
def expr (spaced : Bool) (place : Place) (e : Expr α) : List Char := inPlace place e (bare spaced e)

/-- The parameters of a function. -/
def signature (spaced : Bool) (s : Signature α (Expr α)) : List Char :=
  parameters s.params (listed spaced .element s.defaults) s.vararg s.kwarg

end Format

end Toolchain
