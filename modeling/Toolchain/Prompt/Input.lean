import Toolchain.Text.Basic

/-!
# What is typed at the prompt

Whether what was typed is complete, judged by its brackets and quotes alone: a program may go on
over several lines.

## Main definitions

* `inputLines`: the lines of an input
* `needsMore`: whether brackets or long strings are open
* `startsBlock`: whether a line starts a block
-/

namespace Toolchain

/-- What is being read. -/
inductive Reading where
  | code
  | comment
  /-- A string between quotes, which are three if it is long. -/
  | string (quote : UInt8) (long escaped : Bool)
  deriving DecidableEq, Repr

/-- How much deeper a byte goes into brackets. -/
def bracketDepth (b : UInt8) : Int :=
  if "([\x7b".toUTF8.toList.contains b then 1
  else if ")]\x7d".toUTF8.toList.contains b then -1
  else 0

/-- Whether brackets or a long string are open at the end of a text. A short string ends with its
line. -/
def isOpen (depth : Int) : Reading → Text → Bool
  | .string _ true _, [] => true
  | _, [] => depth > 0
  | .comment, b :: rest => isOpen depth (if b = '\n'.toUInt8 then .code else .comment) rest
  | .string quote long true, _ :: rest => isOpen depth (.string quote long false) rest
  | .string quote true false, b :: rest =>
    if b = '\\'.toUInt8 then isOpen depth (.string quote true true) rest
    else
      match rest with
      | c :: d :: after =>
        if b = quote ∧ c = quote ∧ d = quote then isOpen depth .code after
        else isOpen depth (.string quote true false) (c :: d :: after)
      | rest => isOpen depth (.string quote true false) rest
  | .string quote false false, b :: rest =>
    if b = '\\'.toUInt8 then isOpen depth (.string quote false true) rest
    else if b = quote ∨ b = '\n'.toUInt8 then isOpen depth .code rest
    else isOpen depth (.string quote false false) rest
  | .code, b :: rest =>
    if b = '#'.toUInt8 then isOpen depth .comment rest
    else if b = '"'.toUInt8 ∨ b = '\''.toUInt8 then
      match rest with
      | c :: d :: after =>
        if c = b ∧ d = b then isOpen depth (.string b true false) after
        else isOpen depth (.string b false false) (c :: d :: after)
      | rest => isOpen depth (.string b false false) rest
    else isOpen (depth + bracketDepth b) .code rest

/-- Whether what was typed goes on in the next line. -/
def needsMore (t : Text) : Bool := isOpen 0 .code t

/-- A line without its comment; what stands after a quote is no comment. -/
def withoutComment (line : Text) : Text :=
  let before := line.takeWhile fun b => b ≠ '#'.toUInt8
  if before.any fun b => b = '"'.toUInt8 ∨ b = '\''.toUInt8 then line else before

/-- Whether a line starts a block. -/
def startsBlock (line : Text) : Bool :=
  (withoutComment line).trim.getLast? = some ':'.toUInt8

/-- A line without the bytes that end it. -/
def withoutLineEnd (line : Text) : Text :=
  (line.reverse.dropWhile fun b => b = '\r'.toUInt8 ∨ b = '\n'.toUInt8).reverse

/-- The lines of an input; what stands after the last line break is a line if there is something. -/
def inputLines (input : Text) : List Text :=
  let pieces := input.lines
  (if pieces.getLast? = some [] then pieces.dropLast else pieces).map withoutLineEnd

end Toolchain
