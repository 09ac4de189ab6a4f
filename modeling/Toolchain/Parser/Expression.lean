import Toolchain.Parser.FString
import Toolchain.Octets

/-!
# The grammar of expressions

Operands and operators alternate, and each operator is folded with all that stands to its left:
there is no precedence. A run of comparisons is one chain and a run of one connective is one node,
unless parentheses stand between. The nesting of expressions is bounded, and the bound is what the
recursion is on.

## Main definitions

* `Parse.maxDepth`: the bound on the nesting
* `Parse.expression`, `Parse.operand`: the two mutually recursive rules
* `Parse.exprList`: expressions with commas between them
* `Parse.parameters`: the parameters of a function
-/

namespace Toolchain

/-- An expression with numbers and positions. -/
abbrev MarkedExpr := Expr Mark

namespace Parse

/-- How deep expressions may be nested. -/
def maxDepth : Nat := 200

/-- Whether a token can start an expression. -/
def startsExpr : TokenKind → Bool
  | .identifier | .integer | .float | .string | .fstring => true
  | .keyword .true | .keyword .false | .keyword .none | .keyword .not | .keyword .lambda => true
  | .opening _ => true
  | .binary .sub | .binary .add | .bitNot => true
  | _ => false

/-- The unary operator a token stands for. -/
def unary? : TokenKind → Option UnaryOp
  | .bitNot => some .invert
  | .keyword .not => some .not
  | .binary .add => some .plus
  | .binary .sub => some .minus
  | _ => none

/-- Ends the parse: an expression is nested too deeply. -/
def tooDeep {α : Type} : Parse α := do
  throw (Fault.placed .unexpectedToken (← peek) .nestingTooDeep)

/-- Expressions with commas between them; a comma makes a tuple. -/
def exprList (expr : Parse MarkedExpr) : Parse MarkedExpr := do
  let first ← peek
  let head ← expr
  if ← check .comma then
    let elts ← iterate (fun (elts : List MarkedExpr) => do
      if ← accept .comma then
        if startsExpr (← peekKind) then
          let e ← expr
          return Next.again (e :: elts)
        else return Next.done elts
      else return Next.done elts) [head]
    return .tuple (← register .tuple first.pos) elts.reverse .load
  else return head

/-- An operator between two operands. -/
inductive Infix where
  | binary (op : BinaryOp)
  | connective (op : BoolOp)
  | comparison (op : CompareOp)

/-- Takes an operator, if there is one. -/
def operator? : Parse (Option Infix) := do
  match ← peekKind with
  | .binary op =>
    let _ ← advance
    return some (.binary op)
  | .keyword .and =>
    let _ ← advance
    return some (.connective .and)
  | .keyword .or =>
    let _ ← advance
    return some (.connective .or)
  | .compare op =>
    let _ ← advance
    return some (.comparison op)
  | .keyword .in =>
    let _ ← advance
    return some (.comparison .isIn)
  | .keyword .is =>
    let _ ← advance
    if ← accept (.keyword .not) then return some (.comparison .isNot)
    else return some (.comparison .is)
  | .keyword .not =>
    let _ ← advance
    let _ ← expect (.keyword .in)
    return some (.comparison .notIn)
  | _ => return none

/-- Folds an operator and its right operand into what stands to its left; `folded` says that the
left side was made by this fold, so that a chain may grow. -/
def fold (pos : Position) (left : MarkedExpr) (folded : Bool) (right : MarkedExpr) :
    Infix → Parse MarkedExpr
  | .binary op => return .binOp (← register .binOp pos) left op right
  | .connective op => do
    match left, folded with
    | .boolOp m o values, true =>
      if o = op then return .boolOp m o (values ++ [right])
      else return .boolOp (← register .boolOp pos) op [left, right]
    | _, _ => return .boolOp (← register .boolOp pos) op [left, right]
  | .comparison op => do
    match left, folded with
    | .compare m l rest, true => return .compare m l (rest ++ [(op, right)])
    | _, _ => return .compare (← register .compare pos) left [(op, right)]

/-- Folds operators and operands from left to right. -/
def operators (operand : Parse MarkedExpr) (pos : Position) (left : MarkedExpr) :
    Parse MarkedExpr :=
  iterate (fun (left, folded) => do
    match ← operator? with
    | some op =>
      let right ← operand
      return .again (← fold pos left folded right op, true)
    | none => return .done left) (left, false)

/-- The parameters of a function, up to a token that is not taken. -/
def parameters (expr : Parse MarkedExpr) (stop : TokenKind) :
    Parse (Signature Mark MarkedExpr) :=
  iterate (fun (s : Signature Mark MarkedExpr) => do
    if ← check stop then return .done s
    let token ← peek
    let parameter : Parse (Param Mark) := do
      let name ← expect .identifier
      return ⟨← register .arg name.pos, name.value⟩
    let s ← match token.kind, s.vararg, s.kwarg with
      | .binary .mult, none, none => do
        let _ ← advance
        let p ← parameter
        pure { s with vararg := some p }
      | .binary .pow, _, none => do
        let _ ← advance
        let p ← parameter
        pure { s with kwarg := some p }
      | .identifier, none, none => do
        let p ← parameter
        let s := { s with params := s.params ++ [p] }
        if ← accept .assign then
          let default ← expr
          pure { s with defaults := s.defaults ++ [default] }
        else if s.defaults.isEmpty then pure s
        else throw (Fault.placed .argumentOrder token .defaultOrder)
      | _, _, _ => unexpected token
    if ← accept .comma then return .again s else return .done s) {}

/-- An anonymous function. -/
def lambda (expr : Parse MarkedExpr) : Parse MarkedExpr := do
  let word ← advance
  let signature ← parameters expr .colon
  let _ ← expect .colon
  let body ← expr
  return .lambda (← register .lambda word.pos) signature body

/-- Ends the parse: a literal has no value. -/
def badLiteral {α : Type} (token : Token) : Parse α :=
  throw (Fault.atToken .invalidLiteral token
    (.entry .invalidLiteral [token.pos.line, token.pos.column, token.value]))

/-- The value of digits in a base. -/
def digitsIn (base : Nat) (cs : List Char) : Nat :=
  cs.foldl (fun n c => n * base + (Text.hexDigit? c).getD 0) 0

/-- The value of an integer literal, if it fits into sixty-four bits with a sign. -/
def integer? (s : String) : Option Int64 :=
  let n := match s.toList with
    | '0' :: 'x' :: digits => digitsIn 16 digits
    | '0' :: 'X' :: digits => digitsIn 16 digits
    | digits => digitsIn 10 digits
  if n < twoPow 63 then some (Int64.ofNat n) else none

/-- Ends the parse: a field of an f-string is ill-formed. -/
def badField {α : Type} (token : Token) (field : List Char) : Parse α :=
  throw (Fault.atToken .invalidLiteral token
    (.entry .badFString [token.pos.line, token.pos.column, .text (Text.ofChars field)]))

/-- Parses the expression of a field. Its positions are relative to its own text; whatever is wrong
with it is a fault of the field. -/
def fieldExpr (expr : Parse MarkedExpr) (token : Token) (text field : List Char) :
    Parse MarkedExpr := do
  let s ← get
  let whole : Parse MarkedExpr := do
    let e ← exprList expr
    if ← accept .newLine then
      let _ ← accept .indentation
    let _ ← expect .finish
    return e
  match whole.run (start (Text.ofChars text) s.arena) with
  | .ok (e, inner) =>
    set { s with arena := inner.arena }
    return e
  | .error _ => badField token field

/-- The literal part collected so far, in reverse, as a constant. -/
def literalPart (token : Token) (literal : List Char) : Parse (List MarkedExpr) := do
  if literal.isEmpty then return []
  else return [.constant (← register .constant token.pos) (.str (String.ofList literal.reverse))]

/-- Joins the parts of an f-string by addition; without any part it is the empty string. -/
def joinParts (token : Token) : List MarkedExpr → Parse MarkedExpr
  | [] => return .constant (← register .constant token.pos) (.str "")
  | part :: parts => parts.foldlM (fun left right => do
      return .binOp (← register .binOp token.pos) left .add right) part

/-- The parts of the inside of an f-string, of at most `n` characters. -/
def parts (expr : Parse MarkedExpr) (token : Token) :
    Nat → List Char → List Char → Parse (List MarkedExpr)
  | 0, literal, _ => literalPart token literal
  | n + 1, literal, cs =>
    match FString.next? cs with
    | none => literalPart token literal
    | some .stray => badField token cs
    | some (.literal c rest) => parts expr token n (c :: literal) rest
    | some (.field inside rest) => do
      let before ← literalPart token literal
      match FString.Field.ofChars? inside with
      | none => badField token inside
      | some field =>
        let value ← fieldExpr expr token field.expr inside
        let spec ← match field.spec with
          | none => pure none
          | some spec => do
            let specParts ← parts expr token n [] spec
            some <$> joinParts token specParts
        let mark ← register .formattedValue token.pos
        let after ← parts expr token n [] rest
        return before ++ .formatted mark value field.conversion spec :: after

/-- An f-string. -/
def fstring (expr : Parse MarkedExpr) (token : Token) : Parse MarkedExpr := do
  let inside := token.value.toList
  joinParts token (← parts expr token (inside.length + 1) [] inside)

/-- Expressions with commas between them up to a closing bracket, which is not taken; a comma may
stand before it. -/
def elements (expr : Parse MarkedExpr) (close : Bracket) : Parse (List MarkedExpr) :=
  iterate (fun (elts : List MarkedExpr) => do
    if ← check (.closing close) then return .done elts
    let elts := elts ++ [← expr]
    if ← accept .comma then return .again elts else return .done elts) []

/-- An expression in parentheses, or a tuple. -/
def paren (expr : Parse MarkedExpr) : Parse MarkedExpr := do
  let bracket ← advance
  if ← accept (.closing .paren) then
    return .tuple (← register .tuple bracket.pos) [] .load
  let first ← expr
  if ← accept .comma then
    let rest ← elements expr .paren
    let _ ← expect (.closing .paren)
    return .tuple (← register .tuple bracket.pos) (first :: rest) .load
  else
    let _ ← expect (.closing .paren)
    return first

/-- A list. -/
def listDisplay (expr : Parse MarkedExpr) : Parse MarkedExpr := do
  let bracket ← advance
  let elts ← elements expr .square
  let _ ← expect (.closing .square)
  return .list (← register .list bracket.pos) elts .load

/-- A dictionary. -/
def dictDisplay (expr : Parse MarkedExpr) : Parse MarkedExpr := do
  let bracket ← advance
  let items ← iterate (fun (items : List (MarkedExpr × MarkedExpr)) => do
    if ← check (.closing .brace) then return .done items
    let key ← expr
    let _ ← expect .colon
    let value ← expr
    let items := items ++ [(key, value)]
    if ← accept .comma then return .again items else return .done items) []
  let _ ← expect (.closing .brace)
  return .dict (← register .dict bracket.pos) items

/-- A constant at a token. -/
def constantAt (token : Token) (value : Literal) : Parse MarkedExpr := do
  return .constant (← register .constant token.pos) value

/-- String literals that stand side by side, joined. -/
def adjacentStrings (first : String) : Parse String :=
  iterate (fun (s : String) => do
    if ← check .string then
      let token ← advance
      return .again (s ++ token.value)
    else return .done s) first

/-- A name, a literal, or something in brackets. -/
def atom (expr : Parse MarkedExpr) : Parse MarkedExpr := do
  let token ← peek
  match token.kind with
  | .identifier =>
    let _ ← advance
    return .name (← register .name token.pos) token.value .load
  | .integer =>
    let _ ← advance
    match integer? token.value with
    | some n => constantAt token (.int n)
    | none => badLiteral token
  | .float =>
    let _ ← advance
    match Binary64.ofDecimal? token.value.toList with
    | some x => constantAt token (.float x)
    | none => badLiteral token
  | .string =>
    let _ ← advance
    let s ← adjacentStrings token.value
    constantAt token (.str s)
  | .fstring =>
    let _ ← advance
    fstring expr token
  | .keyword .true =>
    let _ ← advance
    constantAt token (.bool true)
  | .keyword .false =>
    let _ ← advance
    constantAt token (.bool false)
  | .keyword .none =>
    let _ ← advance
    constantAt token .none
  | .opening .paren => paren expr
  | .opening .square => listDisplay expr
  | .opening .brace => dictDisplay expr
  | _ => unexpected token

/-- An expression, if the next token can start one. -/
def expr? (expr : Parse MarkedExpr) : Parse (Option MarkedExpr) := do
  if startsExpr (← peekKind) then return some (← expr) else return none

/-- One part of a subscript: an expression, or a slice. -/
def sliceItem (expr : Parse MarkedExpr) : Parse MarkedExpr := do
  let token ← peek
  let rest (lower : Option MarkedExpr) : Parse MarkedExpr := do
    let _ ← expect .colon
    let upper ← expr? expr
    let step ← if ← accept .colon then expr? expr else pure none
    return .slice (← register .slice token.pos) lower upper step
  if ← check .colon then rest none
  else
    let lower ← expr
    if ← check .colon then rest (some lower) else return lower

/-- Whether an expression is a slice. -/
def isSlice : MarkedExpr → Bool
  | .slice .. => true
  | _ => false

/-- A subscript of a value. Several parts make a tuple, in which no slice may stand. -/
def subscript (expr : Parse MarkedExpr) (value : MarkedExpr) : Parse MarkedExpr := do
  let _ ← advance
  let (items, commas) ← iterate (fun ((items, commas) : List MarkedExpr × List Token) => do
    let items := items ++ [← sliceItem expr]
    if ← check .comma then
      let commas := commas ++ [← advance]
      if ← check (.closing .square) then return .done (items, commas)
      else return .again (items, commas)
    else return .done (items, commas)) ([], [])
  let _ ← expect (.closing .square)
  match items, commas with
  | [item], [] =>
    if isSlice item then
      return .subscript (← register .subscript value.mark.pos) value item .load
    else
      let part := .index (← register .index item.mark.pos) item
      return .subscript (← register .subscript value.mark.pos) value part .load
  | items, commas =>
    match items.findIdx? isSlice with
    | some i => unexpected (commas.getD (i - 1) ⟨.comma, ",", {}⟩)
    | none =>
      let pos := (items.head?.map fun e => e.mark.pos).getD value.mark.pos
      let tuple := .tuple (← register .tuple pos) items .load
      let part := .index (← register .index pos) tuple
      return .subscript (← register .subscript value.mark.pos) value part .load

/-- The arguments of a call so far. -/
structure Arguments where
  args : List MarkedExpr := []
  keywords : List (KeywordArg Mark MarkedExpr) := []

/-- One argument of a call: a mapping after `**`, a keyword argument, or a positional one, which may
not follow the other two. -/
def argument (expr : Parse MarkedExpr) (a : Arguments) : Parse Arguments := do
  let token ← peek
  if ← accept (.binary .pow) then
    let value ← expr
    let mark ← register .keyword token.pos
    return { a with keywords := a.keywords ++ [⟨mark, none, value⟩] }
  let arg ← expr
  if ← check .assign then
    match arg with
    | .name _ id _ =>
      let _ ← advance
      let value ← expr
      let mark ← register .keyword token.pos
      return { a with keywords := a.keywords ++ [⟨mark, some id, value⟩] }
    | _ => unexpected (← peek)
  else if a.keywords.isEmpty then return { a with args := a.args ++ [arg] }
  else throw (Fault.placed .argumentOrder token .positionalAfterKw)

/-- A call of a function. -/
def call (expr : Parse MarkedExpr) (func : MarkedExpr) : Parse MarkedExpr := do
  let _ ← advance
  let a ← iterate (fun (a : Arguments) => do
    if ← check (.closing .paren) then return .done a
    let a ← argument expr a
    if ← accept .comma then return .again a else return .done a) {}
  let _ ← expect (.closing .paren)
  return .call (← register .call func.mark.pos) func a.args a.keywords

/-- Attributes, subscripts and calls after an operand. -/
def suffixes (expr : Parse MarkedExpr) (operand : MarkedExpr) : Parse MarkedExpr :=
  iterate (fun (e : MarkedExpr) => do
    match ← peekKind with
    | .dot =>
      let _ ← advance
      let name ← expect .identifier
      return .again (.attr (← register .attr e.mark.pos) e name.value .load)
    | .opening .square => return .again (← subscript expr e)
    | .opening .paren => return .again (← call expr e)
    | _ => return .done e) operand

mutual

/-- An expression, nested at most as deep as given. -/
def expression : Nat → Parse MarkedExpr
  | 0 => tooDeep
  | depth + 1 => do
    let first ← peek
    let left ← operand depth
    operators (operand depth) first.pos left

/-- An operand: a unary operator with its operand, an anonymous function, or an atom with its
suffixes. -/
def operand : Nat → Parse MarkedExpr
  | 0 => tooDeep
  | depth + 1 => do
    let token ← peek
    match unary? token.kind with
    | some op =>
      let _ ← advance
      let e ← operand depth
      return .unaryOp (← register .unaryOp token.pos) op e
    | none =>
      if token.kind = .keyword .lambda then lambda (expression depth)
      else
        let e ← atom (expression depth)
        suffixes (expression depth) e

end

end Parse

end Toolchain
