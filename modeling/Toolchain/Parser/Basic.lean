import Toolchain.Diagnostic.Basic
import Toolchain.Token.Lexer
import Toolchain.Tree.Arena

/-!
# Parsing

The parser reads tokens one at a time and never goes back. It has no error recovery: the first
fault ends it. This module holds its state and the steps that the grammar is made of.

## Main definitions

* `Fault`: what is wrong with a program text
* `Parse`: a step of the parser, which may end in a fault
* `Parse.peek`, `Parse.advance`, `Parse.accept`, `Parse.expect`: reading tokens
* `Parse.register`: making a node
* `Parse.iterate`: repeating a step
-/

namespace Toolchain

/-- What is wrong with a program text: a diagnostic without the name of the file. -/
structure Fault where
  code : ErrorCode
  pos : Position
  /-- How many bytes of the text it is about. -/
  width : Nat
  message : Message
  hints : List Message
  deriving DecidableEq, Repr

namespace Fault

/-- A fault at a token, with the advice that goes with its code. -/
def atToken (code : ErrorCode) (token : Token) (message : Message) : Fault :=
  { code, pos := token.pos, width := token.width, message, hints := code.hints }

/-- A fault whose message names the line and the column of a token. -/
def placed (code : ErrorCode) (token : Token) (id : MessageId) : Fault :=
  atToken code token (.entry id [token.pos.line, token.pos.column])

/-- The diagnostic of a fault in a file. -/
def diagnostic (file : Text) (f : Fault) : Diagnostic :=
  ({ code := f.code, message := f.message, file, line := f.pos.line, column := f.pos.column,
     hints := f.hints } : Diagnostic).withSpan f.width

end Fault

/-- The state of the parser. -/
structure ParseState where
  /-- The tokens that are left, without comments; the last one is the end of the input. -/
  tokens : List Token
  /-- What is wrong with the invalid tokens. -/
  errors : List LexError
  /-- The nodes made so far. -/
  arena : Arena := {}

/-- A step of the parser. -/
abbrev Parse (α : Type) := StateT ParseState (Except Fault) α

namespace Parse

/-- The parser at the start of a text. -/
def start (t : Text) (arena : Arena) : ParseState :=
  let (tokens, errors) := tokenize t
  { tokens := tokens.filter fun t => t.kind != .comment, errors, arena }

/-- The next token. -/
def peek : Parse Token := do
  return (← get).tokens.headD ⟨.finish, "", {}⟩

/-- The kind of the next token. -/
def peekKind : Parse TokenKind := do
  return (← peek).kind

/-- Takes the next token. The end of the input is never used up. -/
def advance : Parse Token := do
  let token ← peek
  if token.kind = .finish then return token
  else
    modify fun s => { s with tokens := s.tokens.drop 1 }
    return token

/-- Whether the next token is of a kind. -/
def check (kind : TokenKind) : Parse Bool := do
  return (← peek).kind = kind

/-- Takes the next token if it is of a kind. -/
def accept (kind : TokenKind) : Parse Bool := do
  if ← check kind then
    let _ ← advance
    return true
  else return false

/-- Ends the parse: a token stands where it may not. An invalid token comes with what is wrong with
it. -/
def unexpected {α : Type} (token : Token) : Parse α := do
  let shown := if token.kind = .finish then token.kind.name else token.value
  let message : Message := .entry .unexpectedToken [token.pos.line, token.pos.column, shown]
  if token.kind = .invalid then
    let fault := Fault.atToken .invalidToken token message
    let causes := ((← get).errors.filter fun e => e.pos == token.pos).reverse.map LexError.message
    throw { fault with hints := causes ++ fault.hints }
  else throw (Fault.atToken .unexpectedToken token message)

/-- Takes the next token, which has to be of a kind. -/
def expect (kind : TokenKind) : Parse Token := do
  if ← check kind then advance else unexpected (← peek)

/-- Makes a node. -/
def register (tag : NodeTag) (pos : Position) : Parse Mark := do
  let s ← get
  let (mark, arena) := s.arena.register tag pos
  set { s with arena }
  return mark

/-- What a step of a loop asks for: another step, or the end. -/
inductive Next (σ β : Type) where
  | again (s : σ)
  | done (b : β)

/-- Repeats a step at most `n` times. -/
def iterateWithin {σ β : Type} (step : σ → Parse (Next σ β)) : Nat → σ → Parse β
  | 0, _ => do unexpected (← peek)
  | n + 1, s => do
    match ← step s with
    | .again s => iterateWithin step n s
    | .done b => return b

/-- Repeats a step until it is done. A step that asks for another one has taken a token, so the
number of tokens bounds the number of steps. -/
def iterate {σ β : Type} (step : σ → Parse (Next σ β)) (s : σ) : Parse β := do
  iterateWithin step ((← get).tokens.length + 1) s

end Parse

end Toolchain
