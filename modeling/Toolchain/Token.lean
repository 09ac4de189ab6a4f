import Toolchain.Operator
import Toolchain.Position
import Toolchain.Text.Quoted

/-!
# Tokens

A token is a kind, the text that goes with it and the position of its first character. Operator
tokens carry the operator they stand for, so the grammar needs no tables of its own.

## Main definitions

* `Keyword`, `Bracket`, `TokenKind`, `Token`
* `TokenKind.name`, `TokenKind.ofNumber?`: the name of a kind, and the kinds by number
* `Keyword.ofSpelling?`: the keywords by spelling
-/

namespace Toolchain

/-- A reserved word. -/
inductive Keyword where
  | false | none | true | and | as | assert | break | classes | continue | define
  | del | elif | else
  | except | finally | for | from | global | if | imports | in | is | lambda | nonlocal | not | or
  | pass | raise | return | try | while | with | yield
  deriving DecidableEq, Repr

namespace Keyword

/-- All reserved words in alphabetical order, capitals first. -/
def all : List Keyword :=
  [.false, .none, .true, .and, .as, .assert, .break, .classes, .continue, .define,
    .del, .elif, .else,
   .except, .finally, .for, .from, .global, .if, .imports, .in, .is, .lambda, .nonlocal, .not, .or,
   .pass, .raise, .return, .try, .while, .with, .yield]

/-- How the word is spelled. -/
def spelling : Keyword → String
  | .false => "False" | .none => "None" | .true => "True" | .and => "and" | .as => "as"
  | .assert => "assert" | .break => "break" | .classes => "class" | .continue => "continue"
  | .define => "def" | .del => "del" | .elif => "elif" | .else => "else" | .except => "except"
  | .finally => "finally" | .for => "for" | .from => "from" | .global => "global" | .if => "if"
  | .imports => "import" | .in => "in" | .is => "is" | .lambda => "lambda"
  | .nonlocal => "nonlocal" | .not => "not" | .or => "or" | .pass => "pass" | .raise => "raise"
  | .return => "return" | .try => "try" | .while => "while" | .with => "with" | .yield => "yield"

/-- The name of the token kind of the word. -/
def kindName : Keyword → String
  | .false => "KwFalse" | .none => "KwNone" | .true => "KwTrue" | .and => "KwAnd" | .as => "KwAs"
  | .assert => "KwAssert" | .break => "KwBreak" | .classes => "KwClass" | .continue => "KwContinue"
  | .define => "KwDef" | .del => "KwDel" | .elif => "KwElif" | .else => "KwElse"
  | .except => "KwExcept" | .finally => "KwFinally" | .for => "KwFor" | .from => "KwFrom"
  | .global => "KwGlobal" | .if => "KwIf" | .imports => "KwImport" | .in => "KwIn" | .is => "KwIs"
  | .lambda => "KwLambda" | .nonlocal => "KwNonlocal" | .not => "KwNot" | .or => "KwOr"
  | .pass => "KwPass" | .raise => "KwRaise" | .return => "KwReturn" | .try => "KwTry"
  | .while => "KwWhile" | .with => "KwWith" | .yield => "KwYield"

/-- The reserved word with a given spelling. -/
def ofSpelling? (s : String) : Option Keyword := all.find? fun k => k.spelling == s

end Keyword

/-- The three shapes of bracket. -/
inductive Bracket where
  | paren | square | brace
  deriving DecidableEq, Repr

/-- The kind of a token. -/
inductive TokenKind where
  /-- A sequence of characters that is no token. -/
  | invalid
  /-- The end of the input. -/
  | finish
  /-- The end of a logical line. -/
  | newLine
  /-- The blanks at the start of a logical line. -/
  | indentation
  /-- A comment, up to the end of its line. -/
  | comment
  | identifier
  | integer
  | float
  | string
  | fstring
  | binary (op : BinaryOp)
  | bitNot
  /-- A comparison that is written with symbols. -/
  | compare (op : CompareOp)
  | assign
  | augmented (op : BinaryOp)
  | opening (b : Bracket)
  | closing (b : Bracket)
  | comma
  | colon
  | dot
  | semicolon
  | keyword (k : Keyword)
  deriving DecidableEq, Repr

namespace TokenKind

/-- The name of a binary operator's token, before `Assign` in its augmented form. -/
def operatorName : BinaryOp → String
  | .add => "Add" | .sub => "Sub" | .mult => "Mul" | .div => "Div" | .floorDiv => "FloorDiv"
  | .mod => "Mod" | .pow => "Exp" | .lShift => "LShift" | .rShift => "RShift"
  | .bitAnd => "And" | .bitOr => "Or" | .bitXor => "Xor"

/-- Whether a binary operator's token is named as a bitwise one. -/
def isBitwise : BinaryOp → Bool
  | .bitAnd | .bitOr | .bitXor => true
  | _ => false

/-- The name of the kind. -/
def name : TokenKind → String
  | invalid => "Invalid"
  | finish => "End"
  | newLine => "NewLine"
  | indentation => "Identation"
  | comment => "Comment"
  | identifier => "Identifier"
  | integer => "Integer"
  | float => "Float"
  | string => "String"
  | fstring => "FString"
  | binary op => if isBitwise op then "OpBit" ++ operatorName op else "Op" ++ operatorName op
  | bitNot => "OpBitNot"
  | compare .eq => "OpEq"
  | compare .notEq => "OpNotEq"
  | compare .lt => "OpLess"
  | compare .ltE => "OpLessEq"
  | compare .gt => "OpGreater"
  | compare .gtE => "OpGreaterEq"
  | compare op => "Op" ++ op.name
  | assign => "OpAssign"
  | augmented op => "Op" ++ operatorName op ++ "Assign"
  | opening .paren => "LParen"
  | closing .paren => "RParen"
  | opening .square => "LBracket"
  | closing .square => "RBracket"
  | opening .brace => "LBrace"
  | closing .brace => "RBrace"
  | comma => "Comma"
  | colon => "Colon"
  | dot => "Dot"
  | semicolon => "Semicolon"
  | keyword k => k.kindName

/-- Whether the kind is a reserved word. -/
def isKeyword : TokenKind → Bool
  | keyword _ => true
  | _ => false

/-- Whether the kind is a name or a literal. -/
def isLiteral : TokenKind → Bool
  | identifier | integer | float | string | fstring => true
  | _ => false

/-- Whether the kind is an operator that updates its target. -/
def isAugmented : TokenKind → Bool
  | augmented _ => true
  | _ => false

/-- Whether the kind is an operator, assignments included. -/
def isOperator : TokenKind → Bool
  | binary _ | bitNot | compare _ | assign | augmented _ => true
  | _ => false

/-- The binary operators in the order in which their tokens are numbered. -/
def numberedOperators : List BinaryOp :=
  [.add, .sub, .mult, .div, .floorDiv, .mod, .pow, .lShift, .rShift, .bitAnd, .bitOr, .bitXor]

/-- The kinds by number. A number at the border of a group of kinds stands for no kind. -/
def numbered : List (Option TokenKind) :=
  [some invalid, some finish, some newLine, some indentation, some comment,
   none, some identifier, some integer, some float, some string, some fstring, none,
   none] ++
  numberedOperators.map (fun op => some (binary op)) ++
  [some bitNot] ++
  [CompareOp.eq, .notEq, .lt, .ltE, .gt, .gtE].map (fun op => some (compare op)) ++
  [some assign, none] ++
  numberedOperators.map (fun op => some (augmented op)) ++
  [none, none,
   some (opening .paren), some (closing .paren), some (opening .square), some (closing .square),
   some (opening .brace), some (closing .brace), some comma, some colon, some dot, some semicolon,
   none] ++
  Keyword.all.map (fun k => some (keyword k)) ++ [none]

/-- The kind with a given number. -/
def ofNumber? (n : Int) : Option TokenKind :=
  if n < 0 then none else numbered[n.toNat]?.join

/-- The name shown for a number: that of its kind, or the number itself. -/
def nameOfNumber (n : Int) : Text :=
  match ofNumber? n with
  | some kind => kind.name
  | none => "TokenType(" ++ Text.ofInt n ++ ")"

/-- The kind of a word: a reserved word, or an identifier. -/
def ofWord (s : String) : TokenKind :=
  match Keyword.ofSpelling? s with
  | some k => keyword k
  | none => identifier

end TokenKind

/-- A token of a source text.

The value of a name, a number or an operator is how it is written; that of a string is its content
after escapes; that of an indentation is its blanks; that of an invalid token is the characters it
was made of. -/
structure Token where
  kind : TokenKind
  value : String
  pos : Position
  deriving DecidableEq, Repr

namespace Token

/-- The number of bytes of the value. -/
def width (t : Token) : Nat := t.value.utf8ByteSize

/-- A token with its value in quotes and its position. -/
def text (t : Token) : Text :=
  t.kind.name ++ "(" ++ Text.quoted t.value ++ ") at " ++ t.pos.text

end Token

end Toolchain
