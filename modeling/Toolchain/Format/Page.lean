import Toolchain.Format.Expression
import Toolchain.Format.Options
import Toolchain.Token.Lexer

/-!
# Statements as text

A program is written line by line. Comments are written before the statement that follows them, or
at the end of the line they stand on. Definitions have blank lines around them; between other
statements a blank line is kept where the source has one.

A comment after a statement is a token. One that has a line of its own is part of the indentation,
so it is found by going through the lines, except those inside a string.

## Main definitions

* `Comment`: a comment and its line
* `comments`: the comments of a program in order
* `Frame`: the options, and the lines of the source
* `Page`: the lines written so far, and the comments still to be written
* `Frame.statement`, `Frame.body`: writing of statements
* `Frame.print`: a whole program
-/

namespace Toolchain

/-! ## Comments -/

namespace Format

/-- A comment. -/
structure Comment where
  line : Nat
  text : Text
  deriving DecidableEq, Repr

/-- Whether a line lies inside a string: after its first line there are as many as it has
newlines. -/
def isInString (tokens : List Token) (line : Nat) : Bool :=
  tokens.any fun t =>
    (t.kind == .string || t.kind == .fstring) && t.pos.line < line &&
      line ≤ t.pos.line + t.value.toList.count '\n'

/-- The comment that is a token on a line, the last one if there are several. -/
def tokenOnLine? (comments : List Token) (line : Nat) : Option Text :=
  (comments.reverse.find? fun t => t.pos.line == line).map fun t => Text.ofString t.value

/-- The comment on a line. -/
def commentOn? (strings comments : List Token) (line : Nat) (source : Text) : Option Comment :=
  let trimmed := source.trim
  if trimmed.startsWith "#" && !isInString strings line then some ⟨line, trimmed⟩
  else (tokenOnLine? comments line).map (Comment.mk line)

/-- The comments of a program, in the order of their lines. -/
def comments (source : Text) : List Comment :=
  let tokens := (tokenize source).1
  let strings := tokens.filter fun t => t.kind == .string || t.kind == .fstring
  let comments := tokens.filter fun t => t.kind == .comment
  source.lines.zipIdx.filterMap fun (text, i) => commentOn? strings comments (i + 1) text

end Format

/-! ## Pages -/

namespace Format

/-- What stays the same while a program is written. -/
structure Frame where
  options : FormatOptions
  /-- The lines of the source; none if there is no source. -/
  source : Array Text := #[]

/-- What was written, and what is left to be written. -/
structure Page where
  /-- The lines, the last one first. -/
  lines : List Text := []
  /-- The comments in the order of their lines. -/
  comments : List Comment := []

namespace Page

/-- The text of all lines. -/
def text (p : Page) : Text := p.lines.reverse.flatMap fun l => l ++ Text.ofString "\n"

/-- Writes blank lines, but none at the beginning. -/
def blank (p : Page) (count : Nat) : Page :=
  if p.lines.isEmpty then p else { p with lines := List.replicate count [] ++ p.lines }

end Page

namespace Frame

variable {α : Type}

/-- Writes a line at some level of indentation. -/
def line (f : Frame) (level : Nat) (s : Text) (p : Page) : Page :=
  let indent := Text.ofChars (List.replicate level f.options.indent).flatten
  { p with lines := (indent ++ s) :: p.lines }

/-- Writes a line for a line of the source, with the comment that stands there. -/
def header (f : Frame) (level source : Nat) (s : List Char) (p : Page) : Page :=
  match p.comments with
  | c :: rest =>
    if c.line = source then
      f.line level (Text.ofChars s ++ "  " ++ c.text) { p with comments := rest }
    else f.line level (Text.ofChars s) p
  | [] => f.line level (Text.ofChars s) p

/-- Writes comments on lines of their own. -/
def commentLines (f : Frame) (level : Nat) (cs : List Comment) (p : Page) : Page :=
  cs.foldl (fun p c => f.line level c.text p) p

/-- Writes the comments that stand before a line of the source. -/
def flush (f : Frame) (level source : Nat) (p : Page) : Page :=
  let before := p.comments.takeWhile fun c => c.line < source
  f.commentLines level before { p with comments := p.comments.drop before.length }

/-- A line of the source, counted from one. -/
def sourceLine? (f : Frame) (n : Nat) : Option Text := if n = 0 then none else f.source[n - 1]?

/-- Whether the line above a line of the source is blank. -/
def isBlankAbove (f : Frame) (n : Nat) : Bool :=
  n ≥ 2 && (f.sourceLine? (n - 1)).any fun l => l.trim.isEmpty

/-- How many blanks a line begins with. -/
def indentWidth (l : Text) : Nat :=
  (l.takeWhile fun b => b == ' '.toUInt8 || b == '\t'.toUInt8).length

/-- Writes the comments that stand before a clause: those indented deeper than the clause belong to
the statements above it. -/
def flushClause (f : Frame) (level source : Nat) (p : Page) : Page :=
  match f.sourceLine? source with
  | none => f.flush level source p
  | some clause =>
    let before := p.comments.takeWhile fun c => c.line < source
    before.foldl (fun p c =>
      let isInner := (f.sourceLine? c.line).any fun l => indentWidth l > indentWidth clause
      f.line (if isInner then level + 1 else level) c.text p)
      { p with comments := p.comments.drop before.length }

/-- Whether a line of the source is a clause with the given word. -/
def isClause (word : Text) (l : Text) : Bool :=
  l.trim.startsWith word && (Text.trim (l.trim.drop word.length)).startsWith ":"

/-- The line of a clause at or above a line of the source, with nothing but blank lines and comments
between them. -/
def clauseAbove? (f : Frame) (word : Text) : Nat → Option Nat
  | 0 => none
  | n + 1 =>
    match f.sourceLine? (n + 1) with
    | none => none
    | some l =>
      if isClause word l then some (n + 1)
      else if l.trim.isEmpty || l.trim.startsWith "#" then clauseAbove? f word n
      else none

/-- The line of the clause whose statements begin at a line of the source. -/
def clauseLine? (f : Frame) (word : Text) (first : Nat) : Option Nat :=
  match f.sourceLine? first with
  | none => none
  | some l => if isClause word l then some first else f.clauseAbove? word (first - 1)

/-- Writes the line of a clause whose statements begin at a line of the source. -/
def clauseHeader (f : Frame) (level : Nat) (word : String) (first : Nat) (p : Page) : Page :=
  match f.clauseLine? word first with
  | some n => f.header level n (word.toList ++ [':']) (f.flushClause level n p)
  | none => f.header level 0 (word.toList ++ [':']) p

/-- An expression in a place. -/
def expr (f : Frame) (place : Place) (e : Expr α) : List Char :=
  Format.expr f.options.spaceAroundOps place e

/-- Expressions in a place, with commas between them. -/
def exprs (f : Frame) (place : Place) (es : List (Expr α)) : List Char :=
  commas (es.map (f.expr place))

/-- The target of a loop: a list of operands. -/
def loopTarget (f : Frame) (e : Expr α) : List Char :=
  match e with
  | .tuple _ (a :: b :: rest) _ => f.exprs .operand (a :: b :: rest)
  | _ => f.expr .operand e

/-- The names of an import. -/
def aliases (names : List (Alias α)) : List Char :=
  commas (names.map fun a =>
    a.name.toList ++ (match a.asName with
      | some n => " as ".toList ++ n.toList
      | none => []))

/-- An expression after a word, if there is one. -/
def clauseExpr (f : Frame) (word : String) (e : Option (Expr α)) : List Char :=
  match e with
  | some e => word.toList ++ f.expr .element e
  | none => []

/-- The line of a handler of exceptions. -/
def handlerText (f : Frame) (type : Option (Expr α)) (name : Option String) : List Char :=
  "except".toList ++ (match type with
    | some t => ' ' :: f.expr .element t ++ (match name with
      | some n => " as ".toList ++ n.toList
      | none => [])
    | none => []) ++ [':']

/-- An expression as a statement; a string with newlines is written over several lines. -/
def exprText (f : Frame) (e : Expr α) : List Char :=
  match e with
  | .constant _ (.str s) =>
    if s.toList.contains '\n' then docstring s.toList else f.expr .top e
  | _ => f.expr .top e

/-- The text of a statement that is a single line, or of the first line of one that has a body. -/
def head (f : Frame) (alternative : Bool) : Stmt α → List Char
  | .functionDef _ name sig _ =>
    "def ".toList ++ name.toList ++ parens (signature f.options.spaceAroundOps sig) ++ [':']
  | .classDef _ name bases _ =>
    "class ".toList ++ name.toList ++
      (if bases.isEmpty then [] else parens (f.exprs .element bases)) ++ [':']
  | .ret _ none => "return".toList
  | .ret _ (some e) => "return ".toList ++ f.expr .top e
  | .delete _ targets => "del ".toList ++ f.exprs .element targets
  | .assign _ targets value =>
    List.intercalate " = ".toList ((targets ++ [value]).map (f.expr .top))
  | .augAssign _ target op value =>
    f.expr .top target ++ ' ' :: op.symbol.toList ++ ['=', ' '] ++ f.expr .top value
  | .forLoop _ target iter _ =>
    "for ".toList ++ f.loopTarget target ++ " in ".toList ++ f.expr .top iter ++ [':']
  | .whileLoop _ test _ => "while ".toList ++ f.expr .element test ++ [':']
  | .ifElse _ test _ _ =>
    (if alternative then "elif " else "if ").toList ++ f.expr .element test ++ [':']
  | .raise _ none _ => "raise".toList
  | .raise _ (some e) cause => "raise ".toList ++ f.expr .element e ++ f.clauseExpr " from " cause
  | .tryExcept .. => "try:".toList
  | .assert _ test msg => "assert ".toList ++ f.expr .element test ++ f.clauseExpr ", " msg
  | .imports _ names => "import ".toList ++ aliases names
  | .importFrom _ module names level =>
    "from ".toList ++ List.replicate level '.' ++ (module.getD "").toList ++ " import ".toList ++
      aliases names
  | .expr _ value => f.exprText value
  | .pass _ => "pass".toList
  | .breakLoop _ => "break".toList
  | .continueLoop _ => "continue".toList

/-- Whether a statement defines a function or a class. -/
def isDefinition : Stmt α → Bool
  | .functionDef .. | .classDef .. => true
  | _ => false

/-- Whether statements are a single conditional, which is written as an alternative. -/
def isAlternative : List (Stmt α) → Bool
  | [.ifElse ..] => true
  | _ => false

/-- The line of the source at which statements begin. -/
def firstLine (ss : List (Stmt Mark)) : Nat :=
  match ss with
  | s :: _ => s.mark.pos.line
  | [] => 0

/-- Writes the blank lines between two statements, the second of which is not yet written. -/
def separate (f : Frame) (level : Nat) (before next : Stmt Mark) (p : Page) : Page :=
  let line := next.mark.pos.line
  let start := match p.comments with
    | c :: _ => min c.line line
    | [] => line
  if isDefinition next || isDefinition before then
    p.blank (if level = 0 then f.options.blankLines.toNat else 1)
  else if f.isBlankAbove start then p.blank 1
  else p

mutual

/-- Writes a statement; a conditional may be an alternative of another one. -/
def statement (f : Frame) (level : Nat) (alternative : Bool) (s : Stmt Mark) (p : Page) : Page :=
  let p := f.header level s.mark.pos.line (f.head alternative s) p
  match s with
  | .functionDef _ _ _ ss | .classDef _ _ _ ss | .forLoop _ _ _ ss | .whileLoop _ _ ss =>
    body f (level + 1) none ss p
  | .ifElse _ _ ss orelse =>
    let p := body f (level + 1) none ss p
    if isAlternative orelse then
      alternatives f level orelse (f.flushClause level (firstLine orelse) p)
    else if orelse.isEmpty then p
    else body f (level + 1) none orelse (f.clauseHeader level "else" (firstLine orelse) p)
  | .tryExcept _ ss handlers orelse final =>
    let p := body f (level + 1) none ss p
    let p := handlerClauses f level handlers p
    let p := if orelse.isEmpty then p
      else body f (level + 1) none orelse (f.clauseHeader level "else" (firstLine orelse) p)
    if final.isEmpty then p
    else body f (level + 1) none final (f.clauseHeader level "finally" (firstLine final) p)
  | _ => p

/-- Writes statements, the first of which follows a statement, if one is given. -/
def body (f : Frame) (level : Nat) (before : Option (Stmt Mark)) : List (Stmt Mark) → Page → Page
  | [], p => p
  | s :: ss, p =>
    let p := match before with
      | some b => f.separate level b s p
      | none => p
    let p := f.flush level s.mark.pos.line p
    body f level (some s) ss (statement f level false s p)

/-- Writes conditionals as alternatives. -/
def alternatives (f : Frame) (level : Nat) : List (Stmt Mark) → Page → Page
  | [], p => p
  | s :: ss, p => alternatives f level ss (statement f level true s p)

/-- Writes handlers of exceptions. -/
def handlerClauses (f : Frame) (level : Nat) :
    List (Handler Mark (Expr Mark) (Stmt Mark)) → Page → Page
  | [], p => p
  | ⟨mark, type, name, ss⟩ :: rest, p =>
    let p := f.flushClause level mark.pos.line p
    let p := f.header level mark.pos.line (f.handlerText type name) p
    handlerClauses f level rest (body f (level + 1) none ss p)

end

/-- Writes a program, and the comments after its last statement. -/
def print (f : Frame) (ss : List (Stmt Mark)) (comments : List Comment) : Text :=
  let p := f.body 0 none ss { comments }
  (f.commentLines 0 p.comments p).text

end Frame

end Format

end Toolchain
