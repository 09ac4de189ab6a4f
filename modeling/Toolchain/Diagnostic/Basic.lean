import Toolchain.Message.Catalogue
import Toolchain.Position
import Toolchain.Octets

/-!
# Diagnostics

A diagnostic says what is wrong with a program text: a code, a message, the place it is about and
advice on how to mend it.

## Main definitions

* `ErrorCode`: the codes, with their descriptions and the advice that goes with them
* `Severity`, `Diagnostic`
* `Diagnostic.text`: a diagnostic on one line
-/

namespace Toolchain

/-- The code of a diagnostic. -/
inductive ErrorCode where
  /-- A sequence of characters that is no token. -/
  | invalidToken
  | unexpectedToken
  | indentation
  | missingBody
  | misplacedClause
  | invalidTarget
  | invalidLiteral
  | argumentOrder
  | loopControl
  | operandRange
  | unpackCount
  | unsupportedNode
  /-- A code outside the list. -/
  | other (name : String)
  deriving DecidableEq, Repr

namespace ErrorCode

/-- The codes of the list: a letter for the stage and a number. -/
def listed : List (ErrorCode × String) :=
  [(invalidToken, "L0001"), (unexpectedToken, "P0001"), (indentation, "P0002"),
   (missingBody, "P0003"), (misplacedClause, "P0004"), (invalidTarget, "P0005"),
   (invalidLiteral, "P0006"), (argumentOrder, "P0007"), (loopControl, "C0001"),
   (operandRange, "C0002"), (unpackCount, "C0003"), (unsupportedNode, "C0004")]

/-- How a code is written. -/
def name : ErrorCode → String
  | other name => name
  | code => ((listed.find? fun p => p.1 == code).map Prod.snd).getD ""

/-- The code that a name writes. -/
def ofName (name : String) : ErrorCode :=
  match listed.find? fun p => p.2 == name with
  | some (code, _) => code
  | none => other name

/-- What a code means, in a few words. -/
def description : ErrorCode → String
  | invalidToken => "invalid token"
  | unexpectedToken => "unexpected token"
  | indentation => "indentation error"
  | missingBody => "missing body"
  | misplacedClause => "misplaced clause"
  | invalidTarget => "invalid target"
  | invalidLiteral => "invalid literal"
  | argumentOrder => "invalid argument order"
  | loopControl => "loop control outside loop"
  | operandRange => "operand out of range"
  | unpackCount => "unpack count mismatch"
  | unsupportedNode => "unsupported node"
  | other _ => "unknown error"

/-- The advice that goes with a code. -/
def hints : ErrorCode → List Message
  | indentation => [.entry .hintIndentation []]
  | missingBody => [.entry .hintMissingBody []]
  | misplacedClause => [.entry .hintChain []]
  | invalidTarget => [.entry .hintTarget []]
  | loopControl => [.entry .hintLoopControl []]
  | _ => []

end ErrorCode

/-- How grave a diagnostic is. -/
inductive Severity where
  | error
  | warning
  | note
  | unknown
  deriving DecidableEq, Repr

namespace Severity

/-- The severities by number. -/
def ofNumber : Int → Severity
  | 0 => error
  | 1 => warning
  | 2 => note
  | _ => unknown

/-- The name of a severity. -/
def name : Severity → String
  | error => "error"
  | warning => "warning"
  | note => "note"
  | unknown => "unknown"

end Severity

/-- What is wrong with a program text, and where. -/
structure Diagnostic where
  code : ErrorCode
  severity : Severity := .error
  message : Message
  file : Text
  line : Int
  column : Int
  /-- The column after the last one the diagnostic is about; zero if that is not known. -/
  endColumn : Int := 0
  hints : List Message := []
  deriving DecidableEq, Repr

namespace Diagnostic

/-- The diagnostic about `length` columns; about an unknown number of them if that is not
positive. Columns are words of 64 bits. -/
def withSpan (d : Diagnostic) (length : Int) : Diagnostic :=
  if length > 0 then { d with endColumn := wrapInt64 (d.column + length) } else d

/-- The place of a diagnostic as `file:line:column`. -/
def location (d : Diagnostic) : Text :=
  d.file ++ ":" ++ Text.ofInt d.line ++ ":" ++ Text.ofInt d.column

/-- A diagnostic on one line. -/
def text (language : Language) (d : Diagnostic) : Text :=
  d.location ++ ": " ++ d.message.text language

end Diagnostic

/-- How much an entry of a log matters. -/
inductive LogLevel where
  | debug
  | info
  | warn
  | error
  deriving DecidableEq, Repr

/-- An entry of a log. -/
structure LogEntry where
  level : LogLevel
  message : Message
  deriving DecidableEq, Repr

end Toolchain
