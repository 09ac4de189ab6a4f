import Toolchain.Text.Quoted

/-!
# Options of the formatter

## Main definitions

* `FormatOptions`: how a program is laid out
* `FormatOptions.fault?`: what is wrong with options
-/

namespace Toolchain

/-- How a program is laid out. -/
structure FormatOptions where
  /-- What lines are indented with: `spaces` or `tabs`. -/
  indentStyle : String := "spaces"
  /-- How many spaces a level is indented by. -/
  indentSize : Int := 4
  /-- Whether spaces stand around operators. -/
  spaceAroundOps : Bool := true
  /-- How many blank lines stand around the definitions of a module. -/
  blankLines : Int := 2
  /-- Whether comments are kept. -/
  keepComments : Bool := true
  deriving DecidableEq, Repr

/-- What is wrong with options. -/
inductive OptionFault where
  | indentSize (size : Int)
  | indentStyle (style : String)
  | blankLines (count : Int)
  deriving DecidableEq, Repr

namespace OptionFault

/-- What is wrong, in words. -/
def text : OptionFault → Text
  | indentSize size => "indent size must be between 1 and 16, got " ++ Text.ofInt size
  | indentStyle style =>
    "indent style must be \"spaces\" or \"tabs\", got " ++ Text.quoted (Text.ofString style)
  | blankLines count => "top-level blank lines must be between 0 and 4, got " ++ Text.ofInt count

end OptionFault

namespace FormatOptions

/-- What is wrong with the options, if anything is. -/
def fault? (o : FormatOptions) : Option OptionFault :=
  if o.indentStyle ≠ "spaces" ∧ o.indentStyle ≠ "tabs" then some (.indentStyle o.indentStyle)
  else if o.indentStyle = "spaces" ∧ ¬(1 ≤ o.indentSize ∧ o.indentSize ≤ 16) then
    some (.indentSize o.indentSize)
  else if ¬(0 ≤ o.blankLines ∧ o.blankLines ≤ 4) then some (.blankLines o.blankLines)
  else none

/-- One level of indentation. -/
def indent (o : FormatOptions) : List Char :=
  if o.indentStyle = "tabs" then ['\t'] else List.replicate o.indentSize.toNat ' '

end FormatOptions

end Toolchain
