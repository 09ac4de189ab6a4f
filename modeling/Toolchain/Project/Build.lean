import Toolchain.Bytecode.Image
import Toolchain.Bytecode.Interchange
import Toolchain.Compiler.Statement
import Toolchain.Diagnostic.Excerpt
import Toolchain.Disk.Basic

/-!
# Files that are compiled

Programs are read from files, and code objects are written to files and read from them.

## Main definitions

* `parseFile`, `compileFile`: the program of a file, parsed and compiled
* `outputPath`: where the code of a source file is written
* `Image.writeFile`, `Image.readFile`: files of code
-/

namespace Toolchain

/-- An outcome that may be a problem, with the entries of the log that go with it. -/
abbrev Attempt (α : Type) := Except Problem α × List LogEntry

namespace Attempt

/-- An outcome that may be a diagnostic. -/
def ofLogged {α : Type} (x : Logged α) : Attempt α := (x.1.mapError Problem.diagnostic, x.2)

end Attempt

/-- Parses the program of a file. A directory can be opened like a file with nothing in it, and only
then does reading it fail. -/
def parseFile (d : Disk) (path : Text) : Attempt Parsed :=
  match d.stat path with
  | .ok (.file source) => .ofLogged (parseModule path source)
  | .ok .directory =>
    (.error (.plain (DiskError.text ⟨"read", path, .isDirectory⟩)), (parseModule path []).2)
  | .error cause => (.error (.plain (DiskError.text ⟨"open", path, cause⟩)), [])

/-- Compiles the program of a file. -/
def compileFile (d : Disk) (path : Text) : Attempt Code :=
  match parseFile d path with
  | (.error p, logs) => (.error p, logs)
  | (.ok parsed, logs) => .ofLogged (compileParsed path (.ok parsed, logs))

/-- The ending of compiled files. -/
def compiledExtension : Text := Text.ofString ".pyc"

/-- The ending of compiled files in the interchange form. -/
def interchangeExtension : Text := Text.ofString ".pyc.cbor"

/-- Where the code of a source file is written: in a directory, or beside the file if none is
given. -/
def outputPath (source directory : Text) : Text :=
  let name := Path.withoutExtension (Path.base source) ++ compiledExtension
  Path.join [if directory.isEmpty then Path.parent source else directory, name]

namespace Image

/-- Reads the code object of a file. -/
def readFile (language : Language) (d : Disk) (path : Text) : Except Text Code :=
  match d.read path with
  | .error e => .error ("invalid compiled file: read " ++ path ++ ": " ++ e.text)
  | .ok bytes => (decode bytes).mapError (FileError.text language)

/-- Writes a code object to a file, in a directory that is made if it is missing. -/
def writeFile (language : Language) (d : Disk) (path : Text) (c : Code) : Except Text Disk := do
  let bytes ← (encode 0 c).mapError (FileError.text language)
  let d ← (d.makeDirectories (Path.parent path)).mapError fun e =>
    "create output directory: " ++ e.text
  (d.write path bytes).mapError fun e => "write " ++ path ++ ": " ++ e.text

end Image

namespace Interchange

/-- Reads the code object of a file in the interchange form. -/
def readFile (language : Language) (d : Disk) (path : Text) : Except Text Code :=
  match d.read path with
  | .error e => .error e.text
  | .ok bytes => (decode bytes).mapError (FileError.text language)

/-- Writes a code object to a file in the interchange form. -/
def writeFile (language : Language) (d : Disk) (path : Text) (c : Code) : Except Text Disk := do
  let bytes ← (encode c).mapError (FileError.text language)
  let d ← (d.makeDirectories (Path.parent path)).mapError DiskError.text
  (d.write path bytes).mapError DiskError.text

end Interchange

end Toolchain
