import Toolchain.Text.Basic

/-!
# Paths

A path names a file by the directories on the way to it, with slashes between them. The functions
here look at the text of a path only.

## Main definitions

* `Path.clean`: the shortest equivalent path
* `Path.join`, `Path.parent`, `Path.base`, `Path.extension`: parts of paths
* `Path.absolute`, `Path.relative`: paths from the root, and from a directory
* `Path.withoutExtension`
-/

namespace Toolchain

namespace Path

/-- The byte between the parts of a path. -/
def slash : UInt8 := '/'.toUInt8

/-- The part that stands for the directory above. -/
def up : Text := Text.ofString ".."

/-- Whether a path starts at the root. -/
def isAbsolute (p : Text) : Bool := p.head? = some slash

/-- Adds a part to the parts of a path, the last one first. Above the root is the root. -/
def push (rooted : Bool) (parts : List Text) (part : Text) : List Text :=
  if part.isEmpty || part = Text.ofString "." then parts
  else if part = up then
    match parts with
    | [] => if rooted then [] else [up]
    | last :: rest => if last = up then up :: parts else rest
  else part :: parts

/-- The parts of a path without those that can be left out. -/
def parts (p : Text) : List Text :=
  ((p.splitAt slash).foldl (push (isAbsolute p)) []).reverse

/-- The path with the given parts. -/
def ofParts (rooted : Bool) (parts : List Text) : Text :=
  let joined := Text.join [slash] parts
  if rooted then slash :: joined
  else if joined.isEmpty then Text.ofString "." else joined

/-- The shortest path that names the same file. -/
def clean (p : Text) : Text := ofParts (isAbsolute p) (parts p)

/-- Paths one after the other as one path; empty ones at the beginning are left out. -/
def join (ps : List Text) : Text :=
  match ps.dropWhile List.isEmpty with
  | [] => []
  | ps => clean (Text.join [slash] ps)

/-- The part of a path up to its last slash, and the part after it. -/
def splitLast (p : Text) : Text × Text :=
  let name := (p.reverse.takeWhile fun b => b ≠ slash).reverse
  (p.take (p.length - name.length), name)

/-- The directory of the file that a path names. -/
def parent (p : Text) : Text := clean (splitLast p).1

/-- The last part of a path. -/
def base (p : Text) : Text :=
  if p.isEmpty then Text.ofString "."
  else
    let trimmed := (p.reverse.dropWhile fun b => b = slash).reverse
    if trimmed.isEmpty then [slash] else (splitLast trimmed).2

/-- The end of the last part of a path from its last dot on; empty if there is none. -/
def extension (p : Text) : Text :=
  let name := (splitLast p).2
  let tail := (name.reverse.takeWhile fun b => b ≠ '.'.toUInt8).reverse
  if tail.length = name.length then [] else '.'.toUInt8 :: tail

/-- A path without its extension. -/
def withoutExtension (p : Text) : Text := p.take (p.length - (extension p).length)

/-- The path from the root, if a relative path starts at a directory. -/
def absolute (directory p : Text) : Text :=
  if isAbsolute p then clean p else join [directory, p]

/-- Two lists without what they begin with in common. -/
def dropCommon : List Text → List Text → List Text × List Text
  | a :: as, b :: bs => if a = b then dropCommon as bs else (a :: as, b :: bs)
  | as, bs => (as, bs)

/-- The path from a directory to a file, both given from the root. -/
def relative (directory p : Text) : Text :=
  let (above, below) := dropCommon (parts directory) (parts p)
  ofParts false (above.map (fun _ => up) ++ below)

/-- A text without an ending, if it has that. -/
def withoutSuffix (ending t : Text) : Text :=
  if t.endsWith ending then t.take (t.length - ending.length) else t

end Path

end Toolchain
