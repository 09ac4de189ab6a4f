import Toolchain.Diagnostic.Log
import Toolchain.Diagnostic.Excerpt
import Toolchain.Instant
import Toolchain.Json.Basic
import Toolchain.Project.Build
import Toolchain.Project.Config

/-!
# Sessions of commands

What a command works with: the settings and surroundings that it finds, and what it writes on the
way.

## Main definitions

* `CommandContext`: what a command finds
* `Console`: what a command has written, and the files as it leaves them
* `Session`: an activity that writes
-/

namespace Toolchain

/-- The variables that a program is started with. -/
abbrev Environment := List (Text × Text)

/-- The value of a variable; empty if it is not set. -/
def Environment.value (e : Environment) (name : String) : Text :=
  ((e.find? fun v => v.1 == Text.ofString name).map Prod.snd).getD []

/-- What a command finds. -/
structure CommandContext where
  language : Language
  config : Config
  environment : Environment := []
  now : Instant := {}
  input : Text := []
  rendering : Rendering := {}

/-- Where entries of the log are written. -/
structure LogTarget where
  format : LogFormat
  /-- The file; none for the standard streams. -/
  file : Option Text

/-- What a command has written, and the files as it leaves them. -/
structure Console where
  disk : Disk
  out : Text := []
  err : Text := []
  /-- What the log has written outside of files. -/
  logged : Text := []
  log : Option LogTarget := none

namespace LogFormat

/-- The line of an entry in the machine-readable encoding. -/
def jsonLine (language : Language) (now : Instant) (e : LogEntry) : Text :=
  let epoch := CalendarDay.number ⟨1970, 1, 1⟩ * Instant.daySeconds * Instant.second
  let elapsed := now.nanoseconds - epoch
  let stamp := (elapsed / Instant.second : Text) ++ Instant.fractionText (elapsed % Instant.second)
  Json.compact (.object [("level", .string (Text.ofString e.level.label).lower),
    ("ts", .number stamp.toStringLossy), ("msg", .string (e.message.text language))]) ++ "\n"

/-- The text of the entries that are written. -/
def lines (f : LogFormat) (language : Language) (now : Instant) (entries : List LogEntry) : Text :=
  match f.encoding with
  | .console => f.console language entries
  | .json => (f.admitted entries).flatMap (jsonLine language now)

end LogFormat

/-- An activity that works in a context and writes. -/
abbrev Session := ReaderT CommandContext (StateM Console)

namespace Session

/-- Writes a text to the output. -/
def print (t : Text) : Session Unit := modify fun c => { c with out := c.out ++ t }

/-- Writes a text to the error stream. -/
def complain (t : Text) : Session Unit := modify fun c => { c with err := c.err ++ t }

/-- A message of the catalogue, as a line. -/
def phrase (id : MessageId) (values : List Template.Value) : Session Text :=
  return (Message.entry id values).text (← read).language ++ "\n"

/-- The files. -/
def disk : Session Disk := return (← get).disk

/-- Leaves the files as given. -/
def setDisk (d : Disk) : Session Unit := modify fun c => { c with disk := d }

/-- Writes entries to the log. -/
def log (entries : List LogEntry) : Session Unit := do
  let some target := (← get).log | return
  let t := target.format.lines (← read).language (← read).now entries
  match target.file with
  | none => modify fun c => { c with logged := c.logged ++ t }
  | some file =>
    match (← disk).append file t with
    | .ok d => setDisk d
    | .error _ => return

/-- The names of standard streams, which are no files. -/
def standardStreams : List Text := [Text.ofString "stdout", Text.ofString "stderr"]

/-- Starts the log; whether that was possible. Its file is there from then on. -/
def startLog (verbose : Bool) : Session Bool := do
  let given := (← read).config.log
  let settings := if verbose then { given with level := Text.ofString "debug" } else given
  match settings.format with
  | .error fault =>
    complain ("error: " ++ fault.text ++ "\n")
    return false
  | .ok format =>
    if settings.file.isEmpty || standardStreams.contains settings.file then
      modify fun c => { c with log := some ⟨format, none⟩ }
      return true
    match (← disk).append settings.file [] with
    | .ok d =>
      modify fun c => { c with disk := d, log := some ⟨format, some settings.file⟩ }
      return true
    | .error e =>
      complain ("error: couldn't open sink " ++ settings.file.quoted ++ ": " ++ e.text ++ "\n")
      return false

/-- Takes the entries of an attempt into the log. -/
def logged {α : Type} (a : Attempt α) : Session (Except Problem α) := do
  log a.2
  return a.1

/-- Works on items one after the other with a state, and shows the problems of each; whether there
were none, and the last state. -/
def forEachWith {α σ : Type} (state : σ) (items : List α)
    (task : α → σ → Session (List Problem × σ)) : Session (Bool × σ) := do
  let context ← read
  let start : Report := { rendering := context.rendering }
  let (report, state) ← items.foldlM (fun (r, state) item => do
    let (problems, state) ← task item state
    let (shown, r) := Report.addAll r context.language (← disk).read? problems
    complain shown
    return (r, state)) (start, state)
  if report.hasProblems then complain (← phrase .errorCount [.int report.count])
  return (!report.hasProblems, state)

/-- Works on items one after the other, and shows the problems of each; whether there were none. -/
def forEach {α : Type} (items : List α) (task : α → Session (List Problem)) : Session Bool :=
  Prod.fst <$> forEachWith () items fun item _ => return (← task item, ())

end Session

end Toolchain
