import Toolchain.Format.Page
import Toolchain.Parser.Block
import Toolchain.Tree.Outline

/-!
# Formatting of programs

A program is parsed and written in a uniform layout. What was written is parsed once more, and is
given out only if it is the same program.

## Main definitions

* `FormatError`: why a program is not formatted
* `format`: the formatted text of a program
* `Root.formatted`: the text of a tree, for which there is no source
-/

namespace Toolchain

/-- Why a program is not formatted. -/
inductive FormatError where
  | options (fault : OptionFault)
  /-- The program does not parse. -/
  | program (diagnostic : Diagnostic)
  /-- What was written does not parse. -/
  | unparsable (file : Text) (diagnostic : Diagnostic)
  /-- What was written is another program. -/
  | changed (file : Text)

namespace FormatError

/-- An error in words. -/
def text (language : Language) : FormatError → Text
  | options fault => fault.text
  | program d => d.text language
  | unparsable file d => file ++ ": formatted output does not parse: " ++ d.text language
  | changed file => file ++ ": formatting would change the program"

end FormatError

/-- The statements of a program. -/
def Root.body {α : Type} : Root α → List (Stmt α)
  | .module _ body => body
  | .expression .. => []

/-- The text of a tree, for which there is no source. -/
def Root.formatted (options : FormatOptions) (r : Root Mark) : Text :=
  Format.Frame.print ⟨options, #[]⟩ r.body []

/-- The text of a tree with the comments and blank lines of its source. -/
def Root.formattedLike (options : FormatOptions) (source : Text) (r : Root Mark) : Text :=
  if source.isEmpty then r.formatted options
  else
    Format.Frame.print ⟨options, source.lines.toArray⟩ r.body
      (if options.keepComments then Format.comments source else [])

/-- The formatted text of a program. -/
def format (options : FormatOptions) (file source : Text) : Except FormatError Text := do
  if let some fault := options.fault? then throw (.options fault)
  match (parseModule file source).1 with
  | .error d => throw (.program d)
  | .ok parsed =>
    let text := parsed.root.formattedLike options source
    match (parseModule file text).1 with
    | .error d => throw (.unparsable file d)
    | .ok again =>
      if again.root.dump = parsed.root.dump then return text else throw (.changed file)

end Toolchain
