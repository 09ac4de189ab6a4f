import Toolchain.Command.Run
import Std.Time.DateTime.Timestamp

/-!
# The program

Reads the files that a command may work on, runs the command, writes its output, and leaves the
files as the command does. The prompt is read line by line.
-/

namespace Toolchain

/-- The endings of the files whose content a command may ask for without naming them. -/
def soughtEndings : List String := [".py", ".pyc", ".toml", ".json"]

/-- Notes what stands at a path. -/
def noted (d : Disk) (path : Text) (entry : DiskEntry) : Disk :=
  { d with entries := (Path.parts path, entry) :: d.entries }

/-- The content of a file; none if there is no such file. -/
def contentAt? (path : String) : IO (Option Text) := do
  try return some (← IO.FS.readBinFile path).toList catch _ => return none

/-- Notes an entry of a directory, with all that is in it. -/
partial def noteEntry (d : Disk) (e : IO.FS.DirEntry) : IO Disk := do
  let path := toString e.path
  if ← e.path.isDir then
    (← e.path.readDir).foldlM noteEntry (noted d (Text.ofString path) .directory)
  else
    let sought := soughtEndings.any fun ending => path.endsWith ending
    let content ← if sought then contentAt? path else pure none
    return noted d (Text.ofString path) (.file (content.getD []))

/-- Notes the directories above a place, and the settings in them. -/
def noteAbove (d : Disk) : List Text → IO Disk
  | [] => return d
  | part :: above => do
    let path := Path.ofParts true (part :: above).reverse
    let d := noted d path .directory
    let settings := Path.join [path, Config.fileName]
    let d ← match ← contentAt? settings.toStringLossy with
      | some content => pure (if d.contains settings then d else noted d settings (.file content))
      | none => pure d
    noteAbove d above

/-- Notes a file that is named by an argument. -/
def noteNamed (d : Disk) (path : Text) : IO Disk := do
  match ← contentAt? path.toStringLossy with
  | none => return d
  | some content =>
    let place := Path.absolute d.currentPath path
    return (noted (d.erase (Path.parts place)) place (.file content))

/-- The files that a command with the given arguments may work on. -/
def snapshot (arguments : List Text) : IO Disk := do
  let current ← IO.currentDir
  let place := Path.parts (Text.ofString (toString current))
  let d : Disk := { current := place }
  let d ← (← current.readDir).foldlM noteEntry d
  let d ← noteAbove d place.reverse
  arguments.foldlM noteNamed d

/-- Makes the files as they are after a command. -/
def restore (before after : Disk) : IO Unit := do
  for (place, entry) in after.entries.reverse do
    if before.get? place ≠ some entry then
      let path := (Path.ofParts true place).toStringLossy
      match entry with
      | .directory => IO.FS.createDirAll path
      | .file content => IO.FS.writeBinFile path ⟨content.toArray⟩
  for (place, entry) in before.entries do
    if after.get? place = none then
      let path := (Path.ofParts true place).toStringLossy
      match entry with
      | .directory => IO.FS.removeDirAll path
      | .file _ => IO.FS.removeFile path

/-- The variables that commands look at. -/
def readEnvironment : IO Environment :=
  ["PYRA_LANG", "PYRA_PATH", "LC_ALL", "LC_MESSAGES", "LANG", "LANGUAGE"].filterMapM fun name => do
    return (← IO.getEnv name).map fun v => (Text.ofString name, Text.ofString v)

/-- The present moment. -/
def present : IO Instant := do
  let elapsed := (← Std.Time.Timestamp.now).toNanosecondsSinceUnixEpoch.val
  let epoch := CalendarDay.number ⟨1970, 1, 1⟩ * Instant.daySeconds * Instant.second
  return ⟨epoch + elapsed.toNat⟩

/-- Writes a text to a stream. -/
def send (stream : IO.FS.Stream) (t : Text) : IO Unit := do
  stream.write ⟨t.toArray⟩
  stream.flush

/-- Reads lines at the prompt until one leaves or the input ends. -/
partial def converse (settings : PromptSettings) (language : Language) (d : Disk)
    (s : PromptSession) : IO PromptSession := do
  let out ← IO.getStdout
  send out (s.shown ++ s.prompt settings)
  let line ← (← IO.getStdin).getLine
  if line.isEmpty then return { s with shown := [] }.finish settings language d
  match { s with shown := [] }.line settings language d (withoutLineEnd (Text.ofString line)) with
  | .goOn s => converse settings language d s
  | .leave s => return s.display (PromptSession.farewell language)

/-- Writes what a command has written, and leaves the files as it does. -/
def conclude (before : Disk) (c : Console) : IO Unit := do
  send (← IO.getStdout) c.out
  send (← IO.getStderr) (c.logged ++ c.err)
  restore before c.disk

/-- Runs the prompt. -/
def runPrompt (context : CommandContext) (arguments : List Text) (d : Disk) : IO Nat := do
  let (settings, c) := ((Session.promptSettings arguments).run context).run { disk := d }
  match settings with
  | none =>
    conclude d c
    return 1
  | some settings =>
    let language := context.language
    let session ← converse settings language d (PromptSession.start settings language)
    let (_, c) := ((Session.log session.logs).run context).run c
    conclude d { c with out := session.shown }
    return 0

/-- Runs the command that the arguments name; the number to end with. -/
def start (arguments : List String) : IO UInt32 := do
  let colours := (← (← IO.getStderr).isTty) && (← IO.getEnv "NO_COLOR").isNone
  let given := arguments.map Text.ofString
  let invocation : Invocation :=
    { arguments := given, environment := ← readEnvironment, now := ← present, colours }
  let d ← snapshot given
  match invocation.prepare d with
  | .ok (context, name :: rest) =>
    if name = Text.ofString "repl" then return (← runPrompt context rest d).toUInt32
  | _ => pure ()
  let (code, c) := invocation.run d
  conclude d c
  return code.toUInt32

end Toolchain

/-- Runs the command that the arguments name. -/
def main (arguments : List String) : IO UInt32 := Toolchain.start arguments
