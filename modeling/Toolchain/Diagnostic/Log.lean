import Toolchain.Diagnostic.Basic
import Toolchain.Text.Case
import Toolchain.Text.Quoted

/-!
# Logs

Which entries of a log are written, and how.

## Main definitions

* `LogSettings`, `LogFormat`: the settings, as given and as understood
* `LogSettings.format`: what settings mean, or what is wrong with them
* `LogFormat.console`: the text of entries
-/

namespace Toolchain

/-- Settings of a log, as given. -/
structure LogSettings where
  level : Text := Text.ofString "warn"
  encoding : Text := Text.ofString "console"
  /-- The file that entries are written to; none if it is empty. -/
  file : Text := []
  deriving DecidableEq, Repr

/-- What is wrong with settings. -/
inductive LogFault where
  | level (given : Text)
  | encoding (given : Text)
  deriving DecidableEq, Repr

namespace LogFault

/-- What is wrong, in words. -/
def text : LogFault → Text
  | level given =>
    "invalid log level " ++ given.quoted ++ ": unrecognized level: " ++ given.lower.quoted
  | encoding given => "invalid log encoding " ++ given.quoted

end LogFault

/-- How entries are written. -/
inductive LogEncoding where
  | console
  | json
  deriving DecidableEq, Repr

/-- Which entries are written, and how. -/
structure LogFormat where
  /-- The least rank of an entry that is written. -/
  threshold : Nat
  encoding : LogEncoding
  deriving DecidableEq, Repr

namespace LogLevel

/-- The rank of a level. -/
def rank : LogLevel → Nat
  | debug => 0 | info => 1 | warn => 2 | error => 3

/-- How a level is written. -/
def label : LogLevel → String
  | debug => "DEBUG" | info => "INFO" | warn => "WARN" | error => "ERROR"

end LogLevel

/-- The names of thresholds in the order of their ranks; the last three are above every level. -/
def thresholdNames : List String := ["debug", "info", "warn", "error", "dpanic", "panic", "fatal"]

namespace LogSettings

/-- The threshold that settings name, in any case; none given means warnings. -/
def threshold? (s : LogSettings) : Option Nat :=
  if s.level.isEmpty then some 2
  else thresholdNames.findIdx? fun name => Text.ofString name = s.level.lower

/-- What settings mean, or what is wrong with them. -/
def format (s : LogSettings) : Except LogFault LogFormat :=
  match s.threshold? with
  | none => .error (.level s.level)
  | some threshold =>
    if s.encoding.isEmpty || s.encoding = Text.ofString "console" then .ok ⟨threshold, .console⟩
    else if s.encoding = Text.ofString "json" then .ok ⟨threshold, .json⟩
    else .error (.encoding s.encoding)

end LogSettings

namespace LogFormat

/-- Whether an entry of a level is written. -/
def admits (f : LogFormat) (level : LogLevel) : Bool := f.threshold ≤ level.rank

/-- The line of an entry on a console. -/
def consoleLine (language : Language) (e : LogEntry) : Text :=
  e.level.label ++ "\t" ++ e.message.text language ++ "\n"

/-- The entries that are written. -/
def admitted (f : LogFormat) (entries : List LogEntry) : List LogEntry :=
  entries.filter fun e => f.admits e.level

/-- The text of the entries that are written to a console. -/
def console (f : LogFormat) (language : Language) (entries : List LogEntry) : Text :=
  (f.admitted entries).flatMap (consoleLine language)

end LogFormat

end Toolchain
