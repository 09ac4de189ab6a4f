import Toolchain.Text.Basic

/-!
# Coloured text

A text for a terminal is a sequence of spans, some of which have a colour. It is written with the
escape codes of the terminal or without them.

## Main definitions

* `Colour`, `Painted`: colours, and texts with colours
* `Painted.text`: a text with or without the codes
* `Painted.stripIn`, `Painted.strip`: a text without its codes
-/

namespace Toolchain

/-- A colour of a terminal. -/
inductive Colour where
  | red | yellow | blue | cyan
  deriving DecidableEq, Repr

/-- The code that starts with the escape character. -/
def escapeCode (code : String) : Text := 0x1B :: Text.ofString ("[" ++ code ++ "m")

namespace Colour

/-- The code that turns a colour on. -/
def code : Colour → Text
  | red => escapeCode "31"
  | yellow => escapeCode "33"
  | blue => escapeCode "34"
  | cyan => escapeCode "36"

/-- The code that turns every colour off. -/
def reset : Text := escapeCode "0"

/-- All codes that are removed from a text: those of colours, and that of bold type. -/
def codes : List Text :=
  [reset, red.code, yellow.code, blue.code, cyan.code, escapeCode "1"]

end Colour

/-- A span of a text, which may have a colour. -/
structure Span where
  colour : Option Colour
  text : Text
  deriving DecidableEq, Repr

/-- A text with colours. -/
abbrev Painted := List Span

namespace Painted

/-- A text without a colour. -/
def plain (t : Text) : Painted := [⟨none, t⟩]

/-- A text in one colour. -/
def inColour (c : Colour) (t : Text) : Painted := [⟨some c, t⟩]

/-- A span with the codes of its colour, or without them. -/
def spanText (colours : Bool) (s : Span) : Text :=
  match s.colour with
  | some c => if colours then c.code ++ s.text ++ Colour.reset else s.text
  | none => s.text

/-- A text with the codes of its colours, or without them. -/
def text (colours : Bool) (p : Painted) : Text := List.flatMap (spanText colours) p

/-- A text without the places at which a code stands; the next `skip` bytes belong to one. -/
def removeFrom (code : Text) : Nat → Text → Text
  | _, [] => []
  | skip + 1, _ :: rest => removeFrom code skip rest
  | 0, b :: rest =>
    if Text.startsWith (b :: rest) code then removeFrom code (code.length - 1) rest
    else b :: removeFrom code 0 rest

/-- A text without some codes, which are removed one after the other. -/
def stripIn (order : List Text) (t : Text) : Text :=
  order.foldl (fun t code => removeFrom code 0 t) t

/-- A text without its codes. -/
def strip (t : Text) : Text := stripIn Colour.codes t

end Painted

end Toolchain
