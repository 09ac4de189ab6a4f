import Toolchain.Diagnostic.Basic
import Toolchain.Diagnostic.Painted

/-!
# Diagnostics with an excerpt of the source

A diagnostic is shown with its place, the line of the source it is about, a mark under the columns,
and advice. A report collects what goes wrong with several files, and shows each problem when it is
added.

## Main definitions

* `Rendering`: what is shown
* `Rendering.excerpt`: a line of the source with a mark under it
* `Rendering.diagnostic`, `Rendering.diagnostics`: one diagnostic, and several
* `Problem`: a diagnostic, or some other trouble
* `Report`, `Report.add`: a report, and the text of a problem that is added to it
* `Report.summary?`: all problems on one line
-/

namespace Toolchain

/-! ## Diagnostics -/

/-- What of a diagnostic is shown. -/
structure Rendering where
  colours : Bool := false
  /-- Whether the line of the source is shown. -/
  source : Bool := true
  /-- Whether advice is shown. -/
  hints : Bool := true
  /-- How many columns a tab takes. -/
  tabWidth : Nat := 4
  deriving DecidableEq, Repr

namespace Severity

/-- The colour in which a severity is shown. -/
def colour : Severity → Colour
  | error => .red
  | warning => .yellow
  | _ => .cyan

end Severity

namespace Rendering

/-- A line in which each tab is replaced by spaces. -/
def expandTabs (r : Rendering) (line : Text) : Text :=
  line.flatMap fun b =>
    if b = '\t'.toUInt8 then List.replicate r.tabWidth ' '.toUInt8 else [b]

/-- How many columns the characters before a column take. -/
def columnsBefore (r : Rendering) (line : Text) (column : Int) : Nat :=
  (line.chars.take (column - 1).toNat).foldl (fun n c => n + if c = '\t' then r.tabWidth else 1) 0

/-- A line of the source with a mark under some columns. -/
def excerpt (r : Rendering) (line : Text) (number column endColumn : Int) : Painted :=
  let label := Text.ofInt number
  let gutter := Painted.plain (List.replicate label.length ' '.toUInt8)
  let bar := Painted.inColour .blue " |"
  let indent := List.replicate (r.columnsBefore line column) ' '.toUInt8
  let marks := List.replicate (max 1 (wrapInt64 (endColumn - column))).toNat '^'.toUInt8
  gutter ++ bar ++ Painted.plain "\n" ++
    Painted.inColour .blue label ++ bar ++ Painted.plain (" " ++ r.expandTabs line ++ "\n") ++
    gutter ++ bar ++ Painted.plain (" " ++ indent) ++ Painted.inColour .red marks ++
      Painted.plain "\n"

/-- A diagnostic with the line of the source, if the source has it. -/
def painted (r : Rendering) (language : Language) (lines : List Text) (d : Diagnostic) : Painted :=
  let colour := d.severity.colour
  let code := if d.code.name.isEmpty then [] else
    Painted.inColour colour ("[" ++ Text.ofString d.code.name ++ "]")
  let shown := if r.source && d.line > 0 then
      match lines[d.line.toNat - 1]? with
      | some line => r.excerpt line d.line d.column d.endColumn
      | none => []
    else []
  let hints := if r.hints then
      d.hints.flatMap fun h =>
        Painted.inColour .cyan " = help:" ++ Painted.plain (" " ++ h.text language ++ "\n")
    else []
  Painted.inColour colour (Text.ofString d.severity.name) ++ code ++
    Painted.plain (": " ++ d.message.text language ++ "\n ") ++
    Painted.inColour .cyan "-->" ++ Painted.plain " " ++ Painted.inColour .cyan d.location ++
      Painted.plain "\n" ++
    shown ++ hints

/-- The text of a diagnostic. -/
def diagnostic (r : Rendering) (language : Language) (lines : List Text) (d : Diagnostic) : Text :=
  (r.painted language lines d).text r.colours

/-- The text of several diagnostics, with a blank line between each two. -/
def diagnostics (r : Rendering) (language : Language) (lines : Text → List Text)
    (ds : List Diagnostic) : Text :=
  Text.join "\n" (ds.map fun d => r.diagnostic language (lines d.file) d)

end Rendering

/-! ## Reports -/

/-- Something that went wrong. -/
inductive Problem where
  | diagnostic (d : Diagnostic)
  /-- Trouble that has no place in a program. -/
  | plain (text : Text)
  deriving DecidableEq, Repr

/-- The problems found so far. -/
structure Report where
  rendering : Rendering := {}
  diagnostics : List Diagnostic := []
  others : List Text := []

namespace Report

/-- How many problems there are. -/
def count (r : Report) : Nat := r.diagnostics.length + r.others.length

/-- Whether there are any problems. -/
def hasProblems (r : Report) : Bool := r.count > 0

/-- Adds a problem, and gives the text that shows it. A diagnostic without advice gets that of its
code; `source` gives the text of a file. -/
def add (r : Report) (language : Language) (source : Text → Option Text) :
    Problem → Text × Report
  | .plain text => ("error: " ++ text ++ "\n", { r with others := r.others ++ [text] })
  | .diagnostic d =>
    let d := if d.hints.isEmpty then { d with hints := d.code.hints } else d
    let lines := match source d.file with
      | some t => t.lines
      | none => []
    (r.rendering.diagnostic language lines d, { r with diagnostics := r.diagnostics ++ [d] })

/-- Adds problems one after the other. -/
def addAll (r : Report) (language : Language) (source : Text → Option Text) :
    List Problem → Text × Report
  | [] => ([], r)
  | p :: ps =>
    let (shown, r) := r.add language source p
    let (rest, r) := r.addAll language source ps
    (shown ++ rest, r)

/-- All problems on one line, the diagnostics first. -/
def summary? (r : Report) (language : Language) : Option Text :=
  if r.hasProblems then
    some (Text.join "; " (r.diagnostics.map (Diagnostic.text language) ++ r.others))
  else none

end Report

end Toolchain
