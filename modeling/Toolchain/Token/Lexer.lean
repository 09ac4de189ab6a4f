import Toolchain.Message.Catalogue
import Toolchain.Source
import Toolchain.Text.Letter
import Toolchain.Token

/-!
# The lexer

The lexer cuts a source text into tokens. It reads the characters from left to right and keeps the
position, the depth of open brackets and the tokens it has found but not handed out.

* A line with nothing but blanks and a comment is skipped whole.
* A newline outside brackets ends a logical line if it stands past column one; the indentation of
  the next logical line follows it at once, even when it is empty.
* A newline inside brackets, or after a backslash, is a blank.
* Characters that make no token give an invalid token and an error, and reading goes on.

## Main definitions

* `Lexeme`: one token with the characters it was read from and the characters after it
* `Lexer`, `Lexer.scan`, `Lexer.read`: the machine, one scan and one token
* `Lexer.all`, `tokenize`: all tokens of a text
-/

namespace Toolchain

/-- What is wrong with a sequence of characters, and where it starts. -/
structure LexError where
  pos : Position
  message : Message
  deriving DecidableEq, Repr

namespace LexError

/-- An error as `line:column: message`. -/
def text (language : Language) (e : LexError) : Text :=
  e.pos.text ++ ": " ++ e.message.text language

end LexError

namespace Lexer

/-- A decimal digit. -/
def isDigit (c : Char) : Bool := '0' ≤ c && c ≤ '9'

/-- A hexadecimal digit. -/
def isHexDigit (c : Char) : Bool := isDigit c || ('a' ≤ c && c ≤ 'f') || ('A' ≤ c && c ≤ 'F')

/-- A character that may start a name: a letter of any script, or an underscore. -/
def isAlpha (c : Char) : Bool :=
  ('a' ≤ c && c ≤ 'z') || ('A' ≤ c && c ≤ 'Z') || c ==
    '_' || (c.toNat > 0x7F && Text.isWideLetter c)

/-- A character that may continue a name. -/
def isAlphaNumeric (c : Char) : Bool := isAlpha c || isDigit c

/-- A blank between tokens. -/
def isBlank (c : Char) : Bool := c == ' ' || c == '\t' || c == '\r' || c == '\x0C'

/-- Whether a list of characters starts with one of a class. -/
def headIs (p : Char → Bool) : List Char → Bool
  | [] => false
  | c :: _ => p c

end Lexer

/-- One token read from the head of some characters. -/
structure Lexeme where
  kind : TokenKind
  value : List Char
  /-- The characters the token was read from. -/
  taken : List Char
  /-- The characters after it. -/
  rest : List Char
  /-- What is wrong, if the token is invalid. -/
  fault : Option Message := none

namespace Lexeme

open Lexer

/-- A token that is written as it is. -/
def plain (kind : TokenKind) (taken rest : List Char) : Lexeme :=
  { kind, value := taken, taken, rest }

/-- Characters that make no token. -/
def bad (value taken rest : List Char) (fault : Message) : Lexeme :=
  { kind := .invalid, value, taken, rest, fault := some fault }

/-- How the inside of a string comes to its end. -/
inductive Ending where
  /-- With its closing quotes. -/
  | closed
  /-- With the end of the input. -/
  | unterminated
  /-- With the end of a line that the string may not cross. -/
  | brokenLine
  deriving DecidableEq, Repr

/-- The inside of a string and its closing quotes. -/
structure Inside where
  /-- The characters the string stands for. -/
  content : List Char
  /-- The characters read, closing quotes included. -/
  taken : List Char
  rest : List Char
  ending : Ending

namespace Inside

/-- The inside that starts with `taken`, which stands for `content`, and goes on as given. -/
def prepend (content taken : List Char) (i : Inside) : Inside :=
  { i with content := content ++ i.content, taken := taken ++ i.taken }

end Inside

/-- What a backslash and a character stand for. -/
def unescape : Char → List Char
  | 'n' => ['\n']
  | 't' => ['\t']
  | 'r' => ['\r']
  | '0' => ['\x00']
  | '\\' => ['\\']
  | '\'' => ['\'']
  | '"' => ['"']
  | c => ['\\', c]

/-- Whether the next two characters are both the quote. -/
def twoMore (quote : Char) : List Char → Bool
  | a :: b :: _ => a == quote && b == quote
  | _ => false

/-- Reads the inside of a string after its opening quotes. A string in three quotes may cross lines;
a backslash before a newline hides it. -/
def inside (quote : Char) (triple : Bool) : List Char → Inside
  | [] => ⟨[], [], [], .unterminated⟩
  | ['\\'] => ⟨[], ['\\'], [], .unterminated⟩
  | '\\' :: '\n' :: rest => (inside quote triple rest).prepend [] ['\\', '\n']
  | '\\' :: c :: rest => (inside quote triple rest).prepend (unescape c) ['\\', c]
  | '\n' :: rest =>
    if triple then (inside quote triple rest).prepend ['\n'] ['\n']
    else ⟨[], [], '\n' :: rest, .brokenLine⟩
  | c :: rest =>
    if c = quote then
      if triple then
        if twoMore quote rest then ⟨[], [c, c, c], rest.drop 2, .closed⟩
        else (inside quote triple rest).prepend [c] [c]
      else ⟨[], [c], rest, .closed⟩
    else (inside quote triple rest).prepend [c] [c]

/-- The token of a string whose opening quotes are `quotes`. -/
def ofInside (kind : TokenKind) (quotes : List Char) (i : Inside) : Lexeme :=
  let taken := quotes ++ i.taken
  match i.ending with
  | .closed => { kind, value := i.content, taken, rest := i.rest }
  | .unterminated => bad taken taken i.rest (.entry .unterminatedString [])
  | .brokenLine => bad taken taken i.rest (.entry .newlineInString [])

/-- Reads a string that starts with `quote`. Two quotes are the empty string unless a third
follows. -/
def string (kind : TokenKind) (quote : Char) (rest : List Char) : Lexeme :=
  if headIs (· == quote) rest then
    if headIs (· == quote) (rest.drop 1) then
      ofInside kind [quote, quote, quote] (inside quote true (rest.drop 2))
    else { kind, value := [], taken := [quote, quote], rest := rest.drop 1 }
  else ofInside kind [quote] (inside quote false rest)

/-- The characters that an ill-formed number swallows. -/
def isJunk (c : Char) : Bool := isAlphaNumeric c || c == '.'

/-- An ill-formed number that starts with `taken`. -/
def badNumber (id : MessageId) (taken rest : List Char) : Lexeme :=
  let whole := taken ++ rest.takeWhile isJunk
  bad whole whole (rest.dropWhile isJunk) (.entry id [.text (Text.ofChars whole)])

/-- Reads a hexadecimal number whose mark `0x` is `mark`. -/
def hexNumber (mark rest : List Char) : Lexeme :=
  let digits := rest.takeWhile isHexDigit
  let after := rest.dropWhile isHexDigit
  if digits.isEmpty || headIs isJunk after then badNumber .invalidHexNumber (mark ++ digits) after
  else plain .integer (mark ++ digits) after

/-- A digit or a decimal point. -/
def isNumeral (c : Char) : Bool := isDigit c || c == '.'

/-- Reads a decimal number. A number with one point is a float. -/
def decimal (cs : List Char) : Lexeme :=
  let numeral := cs.takeWhile isNumeral
  let after := cs.dropWhile isNumeral
  if headIs isAlpha after then badNumber .invalidNumber numeral after
  else match numeral.count '.' with
    | 0 => plain .integer numeral after
    | 1 => plain .float numeral after
    | _ => bad numeral numeral after (.entry .invalidFloat [.text (Text.ofChars numeral)])

/-- Reads a number that starts with a digit. -/
def number : List Char → Lexeme
  | '0' :: 'x' :: rest => hexNumber ['0', 'x'] rest
  | '0' :: 'X' :: rest => hexNumber ['0', 'X'] rest
  | cs => decimal cs

/-- A token with one more character in front of what it was read from. -/
def after (c : Char) (l : Lexeme) : Lexeme := { l with taken := c :: l.taken }

/-- Reads a name, a reserved word, or a string marked by `f`. -/
def word (cs : List Char) : Lexeme :=
  let name := cs.takeWhile isAlphaNumeric
  match name, cs.dropWhile isAlphaNumeric with
  | ['f'], '\'' :: rest => after 'f' (string .fstring '\'' rest)
  | ['f'], '"' :: rest => after 'f' (string .fstring '"' rest)
  | ['F'], '\'' :: rest => after 'F' (string .fstring '\'' rest)
  | ['F'], '"' :: rest => after 'F' (string .fstring '"' rest)
  | _, rest => plain (.ofWord (String.ofList name)) name rest

/-- The operators and delimiters, longer ones first. -/
def symbols : List (List Char × TokenKind) :=
  [(['*', '*', '='], .augmented .pow), (['/', '/', '='], .augmented .floorDiv),
   (['<', '<', '='], .augmented .lShift), (['>', '>', '='], .augmented .rShift),
   (['+', '='], .augmented .add), (['-', '='], .augmented .sub), (['%', '='], .augmented .mod),
   (['&', '='], .augmented .bitAnd), (['|', '='], .augmented .bitOr),
   (['^', '='], .augmented .bitXor), (['*', '*'], .binary .pow), (['*', '='], .augmented .mult),
   (['/', '/'], .binary .floorDiv), (['/', '='], .augmented .div), (['<', '<'], .binary .lShift),
   (['<', '='], .compare .ltE), (['>', '>'], .binary .rShift), (['>', '='], .compare .gtE),
   (['=', '='], .compare .eq), (['!', '='], .compare .notEq),
   (['('], .opening .paren), ([')'], .closing .paren), (['['], .opening .square),
   ([']'], .closing .square), (['\x7b'], .opening .brace), (['\x7d'], .closing .brace),
   ([','], .comma), ([':'], .colon), ([';'], .semicolon), (['~'], .bitNot), (['+'], .binary .add),
   (['-'], .binary .sub), (['%'], .binary .mod), (['&'], .binary .bitAnd), (['|'], .binary .bitOr),
   (['^'], .binary .bitXor), (['*'], .binary .mult), (['/'], .binary .div), (['<'], .compare .lt),
   (['>'], .compare .gt), (['='], .assign)]

/-- Reads an operator or a delimiter. -/
def symbol (c : Char) (rest : List Char) : Lexeme :=
  match symbols.find? fun s => s.1.isPrefixOf (c :: rest) with
  | some (spelling, kind) => plain kind spelling ((c :: rest).drop spelling.length)
  | none => bad [c] [c] rest (.entry .unexpectedChar [.char c])

/-- Reads a comment up to the end of its line; a carriage return at its end is not part of it. -/
def comment (cs : List Char) : Lexeme :=
  let line := cs.takeWhile (· != '\n')
  { kind := .comment, value := (line.reverse.dropWhile (· == '\r')).reverse, taken := line,
    rest := cs.dropWhile (· != '\n') }

/-- Reads the token that starts with a character that is neither blank nor a newline nor a
backslash. -/
def scan (c : Char) (rest : List Char) : Lexeme :=
  if c = '#' then comment (c :: rest)
  else if c = '\'' ∨ c = '"' then string .string c rest
  else if isDigit c then number (c :: rest)
  else if isAlpha c then word (c :: rest)
  else if c = '.' then
    if headIs isDigit rest then decimal (c :: rest) else plain .dot [c] rest
  else symbol c rest

end Lexeme

/-- The state of the lexer. -/
structure Lexer where
  /-- The characters that are left. -/
  rest : List Char
  /-- The position of the first of them. -/
  pos : Position := {}
  /-- How many brackets are open. -/
  depth : Nat := 0
  /-- Whether the last newline met was a blank. -/
  multiLine : Bool := false
  /-- Whether the indentation of the first line has been read. -/
  started : Bool := false
  /-- The tokens found and not handed out. -/
  queue : List Token := []
  /-- The token handed out last. -/
  last : Token := ⟨.invalid, "", ⟨0, 0⟩⟩
  /-- The errors so far. -/
  errors : List LexError := []

namespace Lexer

/-- The lexer at the start of a text. -/
def start (t : Text) : Lexer := { rest := t.chars }

/-- Reads the indentation of the next line that has a token. The blanks met on the current line are
given in reverse; `hidden` says that a comment is being skipped. -/
def indentation (l : Lexer) (blanks : List Char) (hidden : Bool) : List Char → Lexer × Token
  | [] => ({ l with rest := [] }, ⟨.indentation, "", ⟨l.pos.line, 1⟩⟩)
  | c :: rest =>
    let onward := { l with pos := l.pos.next c }
    if c = '\n' then indentation onward [] false rest
    else if hidden then indentation onward [] true rest
    else if c = ' ' ∨ c = '\t' then indentation onward (c :: blanks) false rest
    else if c = '\r' ∨ c = '\x0C' then indentation onward blanks false rest
    else if c = '#' then indentation onward [] true rest
    else ({ l with rest := c :: rest },
      ⟨.indentation, String.ofList blanks.reverse, ⟨l.pos.line, 1⟩⟩)

/-- The depth of open brackets after a token; a bracket that closes nothing does not count. -/
def depthAfter (depth : Nat) : TokenKind → Nat
  | .opening _ => depth + 1
  | .closing _ => depth - 1
  | _ => depth

/-- The lexer after a token. -/
def push (l : Lexer) (x : Lexeme) : Lexer :=
  { l with
    rest := x.rest
    pos := l.pos.after x.taken
    depth := depthAfter l.depth x.kind
    queue := l.queue ++ [⟨x.kind, String.ofList x.value, l.pos⟩]
    errors := l.errors ++ (x.fault.map fun message => (⟨l.pos, message⟩ : LexError)).toList }

/-- Skips blanks and finds the next token. -/
def scanFrom (l : Lexer) : List Char → Lexer
  | [] => { l with rest := [], queue := l.queue ++ [⟨.finish, "", l.pos⟩] }
  | '\\' :: '\r' :: '\n' :: rest =>
    scanFrom { l with pos := l.pos.after ['\\', '\r', '\n'], multiLine := true } rest
  | '\\' :: '\n' :: rest =>
    scanFrom { l with pos := l.pos.after ['\\', '\n'], multiLine := true } rest
  | '\\' :: '\r' :: rest =>
    l.push (.bad ['\\'] ['\\', '\r'] rest (.entry .badContinuation []))
  | '\\' :: rest => l.push (.bad ['\\'] ['\\'] rest (.entry .badContinuation []))
  | c :: rest =>
    let onward := { l with pos := l.pos.next c }
    if c = '\n' then
      if l.depth > 0 then scanFrom { onward with multiLine := true } rest
      else if l.pos.column > 1 then
        let (next, token) := indentation { onward with multiLine := false } [] false rest
        { next with queue := next.queue ++ [⟨.newLine, "\n", l.pos⟩, token] }
      else scanFrom { onward with multiLine := false } rest
    else if isBlank c then scanFrom onward rest
    else l.push (Lexeme.scan c rest)

/-- Finds at least one more token. Blanks before the first token of the text are an indentation. -/
def scan (l : Lexer) : Lexer :=
  if l.started then l.scanFrom l.rest
  else
    let (next, token) := indentation { l with started := true } [] false l.rest
    if token.value.isEmpty then next.scanFrom next.rest
    else { next with queue := next.queue ++ [token] }

/-- The lexer with a token ready to be handed out. -/
def fill (l : Lexer) : Lexer := if l.queue.isEmpty then l.scan else l

/-- The next token. -/
def peek (l : Lexer) : Token := l.fill.queue.headD ⟨.finish, "", l.pos⟩

/-- Hands out the next token. The end of the input is handed out again and again. -/
def read (l : Lexer) : Token × Lexer :=
  let token := l.peek
  let filled := l.fill
  (token, { filled with
    queue := if token.kind = .finish then filled.queue else filled.queue.drop 1
    last := token })

/-- Whether the end of the input is among the tokens found. -/
def isDrained (l : Lexer) : Bool := l.queue.any fun t => t.kind == .finish

/-- Scans until the end of the input is found, at most `n` times. Gives all tokens found, and the
lexer with the last ones. -/
def drainWithin : Nat → Lexer → List Token × Lexer
  | 0, l => (l.queue, l)
  | n + 1, l =>
    if l.isDrained then (l.queue, l)
    else
      let (tokens, last) := drainWithin n (scan { l with queue := [] })
      (l.queue ++ tokens, last)

/-- Hands out all tokens that are left. Every scan but the first takes a character, so the number
of characters bounds the number of scans. -/
def all (l : Lexer) : List Token × Lexer :=
  let (tokens, drained) := drainWithin (l.rest.length + 2) l
  let final := tokens.getLastD ⟨.finish, "", drained.pos⟩
  (tokens, { drained with queue := [final], last := final })

end Lexer

/-- The tokens of a text and its errors. -/
def tokenize (t : Text) : List Token × List LexError :=
  let (tokens, drained) := (Lexer.start t).all
  (tokens, drained.errors)

end Toolchain
