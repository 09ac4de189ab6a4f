import Toolchain.Disk.Path

/-!
# Directories and files

The files that the tools read and write. A file is known by the names of the directories on the way
to it from the root; a path is followed part by part, and every part but the last has to be a
directory.

## Main definitions

* `Disk`: directories and files, and the current directory
* `DiskError`: why a file cannot be read or written
* `Disk.locate`: the place that a path names
* `Disk.read`, `Disk.write`, `Disk.makeDirectories`, `Disk.remove`
-/

namespace Toolchain

/-- A place: the names on the way to it from the root. -/
abbrev Location := List Text

/-- What stands at a place. -/
inductive DiskEntry where
  | directory
  | file (content : Text)
  deriving DecidableEq, Repr

/-- Why a path cannot be used. -/
inductive DiskCause where
  | missing
  | notDirectory
  | isDirectory
  | exists
  | notEmpty
  deriving DecidableEq, Repr

namespace DiskCause

/-- A cause in words. -/
def text : DiskCause → String
  | missing => "no such file or directory"
  | notDirectory => "not a directory"
  | isDirectory => "is a directory"
  | .exists => "file exists"
  | notEmpty => "directory not empty"

end DiskCause

/-- What could not be done with a path, and why. -/
structure DiskError where
  action : String
  path : Text
  cause : DiskCause
  deriving DecidableEq, Repr

namespace DiskError

/-- An error in words. -/
def text (e : DiskError) : Text := e.action ++ " " ++ e.path ++ ": " ++ Text.ofString e.cause.text

end DiskError

/-- Directories and files, and the directory that relative paths start at. -/
structure Disk where
  entries : List (Location × DiskEntry) := []
  current : Location := []

namespace Disk

/-- What stands at a place; at the root there is always a directory. -/
def get? (d : Disk) (place : Location) : Option DiskEntry :=
  if place.isEmpty then some .directory
  else (d.entries.find? fun e => e.1 == place).map Prod.snd

/-- Puts an entry at a place, instead of what stands there. -/
def put (d : Disk) (place : Location) (entry : DiskEntry) : Disk :=
  { d with entries := (place, entry) :: d.entries.filter fun e => e.1 != place }

/-- Removes what stands at a place. -/
def erase (d : Disk) (place : Location) : Disk :=
  { d with entries := d.entries.filter fun e => e.1 != place }

/-- The names in a directory. -/
def names (d : Disk) (place : Location) : List Text :=
  d.entries.filterMap fun (p, _) =>
    if p.dropLast = place ∧ p ≠ [] then p.getLast? else none

/-- The path of the current directory. -/
def currentPath (d : Disk) : Text := Path.ofParts true d.current

/-- Follows one part of a path from a place. -/
def follow (d : Disk) (place : Location) (part : Text) : Except DiskCause Location :=
  match d.get? place with
  | none => .error .missing
  | some (.file _) => .error .notDirectory
  | some .directory =>
    if part.isEmpty || part = Text.ofString "." then .ok place
    else if part = Path.up then .ok place.dropLast
    else .ok (place ++ [part])

/-- The place that a path names, where something may or may not stand. -/
def locate (d : Disk) (path : Text) : Except DiskCause Location :=
  if path.isEmpty then .error .missing
  else
    (path.splitAt Path.slash).foldlM d.follow (if Path.isAbsolute path then [] else d.current)

/-- What a path names. -/
def stat (d : Disk) (path : Text) : Except DiskCause DiskEntry := do
  let place ← d.locate path
  match d.get? place with
  | some entry => .ok entry
  | none => .error .missing

/-- Whether a path names something. -/
def contains (d : Disk) (path : Text) : Bool :=
  match d.stat path with
  | .ok _ => true
  | .error _ => false

/-- Whether a path names a directory. -/
def isDirectory (d : Disk) (path : Text) : Bool :=
  match d.stat path with
  | .ok .directory => true
  | _ => false

/-- Whether a path names a file. -/
def isFile (d : Disk) (path : Text) : Bool :=
  match d.stat path with
  | .ok (.file _) => true
  | _ => false

/-- The content of a file. -/
def read (d : Disk) (path : Text) : Except DiskError Text :=
  match d.stat path with
  | .ok (.file content) => .ok content
  | .ok .directory => .error ⟨"read", path, .isDirectory⟩
  | .error cause => .error ⟨"open", path, cause⟩

/-- The content of a file, if it can be read. -/
def read? (d : Disk) (path : Text) : Option Text := (d.read path).toOption

/-- Writes a file, in a directory that exists. -/
def write (d : Disk) (path content : Text) : Except DiskError Disk :=
  match d.locate path with
  | .error cause => .error ⟨"open", path, cause⟩
  | .ok place =>
    match d.get? place with
    | some .directory => .error ⟨"open", path, .isDirectory⟩
    | _ => .ok (d.put place (.file content))

/-- Appends a text to a file, which is made if it is missing. -/
def append (d : Disk) (path content : Text) : Except DiskError Disk :=
  d.write path ((d.read? path).getD [] ++ content)

/-- A path without the slashes at its end. -/
def trimSlashes (path : Text) : Text := (path.reverse.dropWhile fun b => b = Path.slash).reverse

/-- Makes a directory, in a directory that exists. -/
def makeDirectory (d : Disk) (path : Text) : Except DiskError Disk :=
  match d.locate (trimSlashes path) with
  | .error cause => .error ⟨"mkdir", path, cause⟩
  | .ok place =>
    match d.get? place with
    | some _ => .error ⟨"mkdir", path, .exists⟩
    | none => .ok (d.put place .directory)

/-- Makes a directory and those above it that are missing; `bound` limits how many. -/
def makeWithin : (bound : Nat) → Disk → Text → Except DiskError Disk
  | 0, d, _ => .ok d
  | bound + 1, d, path =>
    match d.stat path with
    | .ok .directory => .ok d
    | .ok (.file _) => .error ⟨"mkdir", path, .notDirectory⟩
    | .error _ => do
      let above := (Path.splitLast (trimSlashes path)).1
      let d ← if above.isEmpty then .ok d else makeWithin bound d above
      match d.makeDirectory path with
      | .ok d => .ok d
      | .error e => if d.isDirectory path then .ok d else .error e

/-- Makes a directory and those above it that are missing. -/
def makeDirectories (d : Disk) (path : Text) : Except DiskError Disk :=
  makeWithin (path.length + 1) d path

/-- Removes a file, or a directory with nothing in it. -/
def remove (d : Disk) (path : Text) : Except DiskError Disk :=
  match d.locate path with
  | .error cause => .error ⟨"remove", path, cause⟩
  | .ok place =>
    match d.get? place with
    | none => .error ⟨"remove", path, .missing⟩
    | some (.file _) => .ok (d.erase place)
    | some .directory =>
      if (d.names place).isEmpty then .ok (d.erase place)
      else .error ⟨"remove", path, .notEmpty⟩

/-- Removes what a path names, if that can be done. -/
def discard (d : Disk) (path : Text) : Disk :=
  match d.remove path with
  | .ok d => d
  | .error _ => d

/-- Removes what a path names with all that is in it; nothing has to be there. -/
def removeAll (d : Disk) (path : Text) : Except DiskError Disk :=
  match d.locate path with
  | .error .missing => .ok d
  | .error cause => .error ⟨"unlinkat", path, cause⟩
  | .ok place => .ok { d with entries := d.entries.filter fun e => !place.isPrefixOf e.1 }

/-- The names in the directory that a path names. -/
def list (d : Disk) (path : Text) : List Text :=
  match d.locate path with
  | .ok place => d.names place
  | .error _ => []

end Disk

end Toolchain
