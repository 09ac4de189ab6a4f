import Toolchain.Blake2b
import Toolchain.Instant
import Toolchain.Json.Basic
import Toolchain.Json.Parser
import Toolchain.Octets
import Toolchain.Project.Build

/-!
# The build cache

Code that was compiled before is kept in a directory, with an index that says which source each file
of code belongs to. A source is known by the digest of its content, so that code is used again only
while the source is the same. What was not used for the longest time goes first when there is too
much.

## Main definitions

* `contentHash`: the digest that a source is known by
* `CacheEntry`, `CacheIndex`: the index, and how it is written and read
* `BuildCache`: a cache that is open
* `BuildCache.inDirectory`, `BuildCache.get`, `BuildCache.put`, `BuildCache.clear`,
  `BuildCache.save`
* `compileCached`: compiles a file that has changed
-/

namespace Toolchain

/-- The digest that a source is known by. -/
def contentHash (content : Text) : Text := Text.ofString (Text.toHex (Blake2b.digest content))

/-- What the index says about the code of a source file. -/
structure CacheEntry where
  sourcePath : Text := []
  sourceHash : Text := []
  /-- The file of the code. -/
  cacheFile : Text := []
  size : Int64 := 0
  compiledAt : Instant := {}
  accessedAt : Instant := {}
  accessCount : Int64 := 0
  deriving DecidableEq, Repr

/-- The index of a cache. -/
structure CacheIndex where
  version : Text := []
  /-- The entries by the path of the source file; none if the index does not say. -/
  entries : Option (List (Text × CacheEntry)) := none
  totalSize : Int64 := 0
  updatedAt : Instant := {}
  deriving DecidableEq, Repr

namespace Json

/-- A text that a member may hold; a null leaves what was there. -/
def orText? (current : Text) : Json → Option Text
  | null => some current
  | string t => some t
  | _ => none

/-- An integer of 64 bits that a member may hold; a null leaves what was there. -/
def orInteger? (current : Int64) : Json → Option Int64
  | null => some current
  | number literal => (literal.toInt?.filter isInt64).map Int64.ofInt
  | _ => none

/-- The JSON number of an integer of 64 bits. -/
def ofInt64 (n : Int64) : Json := ofInt n.toInt

/-- A point in time that a member may hold; a null leaves what was there. -/
def orInstant? (current : Instant) : Json → Option Instant
  | null => some current
  | string t => Instant.parse? t
  | _ => none

/-- The members of an object; a null has none. -/
def members? : Json → Option (List (String × Json))
  | null => some []
  | object members => some members
  | _ => none

/-- A point in time. -/
def ofInstant (t : Instant) : Json := string t.text

end Json

namespace CacheEntry

/-- An entry as it is written. -/
def json (e : CacheEntry) : Json :=
  .object [("source_path", .string e.sourcePath), ("source_hash", .string e.sourceHash),
    ("cache_file", .string e.cacheFile), ("size", .ofInt64 e.size),
    ("compiled_at", .ofInstant e.compiledAt), ("accessed_at", .ofInstant e.accessedAt),
    ("access_count", .ofInt64 e.accessCount)]

/-- Puts a member that was read into an entry. -/
def assign? (e : CacheEntry) (member : String × Json) : Option CacheEntry :=
  let v := member.2
  match String.ofList (Json.looseKey member.1) with
  | "source_path" => (v.orText? e.sourcePath).map fun t => { e with sourcePath := t }
  | "source_hash" => (v.orText? e.sourceHash).map fun t => { e with sourceHash := t }
  | "cache_file" => (v.orText? e.cacheFile).map fun t => { e with cacheFile := t }
  | "size" => (v.orInteger? e.size).map fun n => { e with size := n }
  | "compiled_at" => (v.orInstant? e.compiledAt).map fun t => { e with compiledAt := t }
  | "accessed_at" => (v.orInstant? e.accessedAt).map fun t => { e with accessedAt := t }
  | "access_count" => (v.orInteger? e.accessCount).map fun n => { e with accessCount := n }
  | _ => some e

/-- The entry that a value writes. -/
def ofJson? (v : Json) : Option CacheEntry := do (← v.members?).foldlM assign? {}

end CacheEntry

namespace CacheIndex

/-- The version of indices that belongs to the form of compiled files. -/
def currentVersion : Text := Text.ofString "pyrc-1"

/-- An index without entries. -/
def empty : CacheIndex := { version := currentVersion, entries := some [] }

/-- All entries. -/
def all (x : CacheIndex) : List (Text × CacheEntry) := x.entries.getD []

/-- The entry of a source file. -/
def get? (x : CacheIndex) (path : Text) : Option CacheEntry :=
  (x.all.find? fun e => e.1 == path).map Prod.snd

/-- Removes the entry of a source file. -/
def erase (x : CacheIndex) (path : Text) : CacheIndex :=
  { x with entries := x.entries.map fun es => es.filter fun e => e.1 != path }

/-- Puts an entry for a source file, instead of the one that is there. -/
def insert (x : CacheIndex) (path : Text) (entry : CacheEntry) : CacheIndex :=
  { x with entries := some ((path, entry) :: (x.erase path).all) }

/-- An index as it is written. -/
def json (x : CacheIndex) : Json :=
  let entries := match x.entries with
    | none => .null
    | some es => Json.sorted (es.map fun (path, e) => (path.toStringLossy, e.json))
  .object [("version", .string x.version), ("entries", entries),
    ("total_size", .ofInt64 x.totalSize),
    ("updated_at", .ofInstant x.updatedAt)]

/-- Puts a member that was read into an index. -/
def assign? (x : CacheIndex) (member : String × Json) : Option CacheIndex :=
  let v := member.2
  match String.ofList (Json.looseKey member.1) with
  | "version" => (v.orText? x.version).map fun t => { x with version := t }
  | "entries" =>
    match v with
    | .null => some { x with entries := none }
    | v => do
      let es ← (← v.members?).mapM
        fun (path, e) => do return (Text.ofString path, ← CacheEntry.ofJson? e)
      return es.foldl (fun x (path, e) => x.insert path e) { x with entries := some x.all }
  | "total_size" => (v.orInteger? x.totalSize).map fun n => { x with totalSize := n }
  | "updated_at" => (v.orInstant? x.updatedAt).map fun t => { x with updatedAt := t }
  | _ => some x

/-- The index that a value writes. -/
def ofJson? (v : Json) : Option CacheIndex := do (← v.members?).foldlM assign? {}

/-- The index that a text writes. -/
def parse? (t : Text) : Option CacheIndex := do ofJson? (← Json.parse? t)

/-- The entries, those first that were not used for the longest time. -/
def byAge (x : CacheIndex) : List CacheEntry :=
  (x.all.map Prod.snd).mergeSort fun a b => a.accessedAt.nanoseconds ≤ b.accessedAt.nanoseconds

end CacheIndex

/-- A cache that is open. -/
structure BuildCache where
  directory : Text
  index : CacheIndex := CacheIndex.empty
  enabled : Bool := true

/-- Why code was not put into a cache. -/
inductive CacheError where
  | disk (e : DiskError)
  /-- The file of the code cannot be written. -/
  | unwritable (e : DiskError)
  | code (e : FileError)
  deriving DecidableEq, Repr

namespace CacheError

/-- An error in words. -/
def text (language : Language) : CacheError → Text
  | disk e => e.text
  | unwritable e => "write cache file: " ++ e.text
  | code e => e.text language

end CacheError

namespace BuildCache

/-- The most entries that are kept. -/
def maxEntries : Nat := 1000

/-- The most bytes of code that are kept. -/
def maxSize : Int64 := 64 * 1024 * 1024

/-- The name of the directory of a project's cache. -/
def directoryName : Text := Text.ofString ".pyra-cache"

/-- The path of the index. -/
def indexPath (c : BuildCache) : Text := Path.join [c.directory, Text.ofString "index.json"]

/-- Writes the index. -/
def save (c : BuildCache) (d : Disk) : Except DiskError Disk :=
  d.write c.indexPath c.index.json.indented

/-- Removes all code, and writes an index without entries; the error is that of writing. -/
def clear (c : BuildCache) (d : Disk) : Option DiskError × BuildCache × Disk :=
  let d := (d.list c.directory).foldl (fun d name =>
    let path := Path.join [c.directory, name]
    if Path.extension name = compiledExtension && d.isFile path then d.discard path else d) d
  let c := { c with index := CacheIndex.empty }
  match c.save d with
  | .ok d => (none, c, d)
  | .error e => (some e, c, d)

/-- Opens the cache in a directory, which is made if it is missing. An index that cannot be read
counts as empty; one of another version is cleared. -/
def inDirectory (directory : Text) (d : Disk) : Except Text BuildCache × Disk :=
  match d.makeDirectories directory with
  | .error e => (.error ("failed to create cache directory: " ++ e.text), d)
  | .ok d =>
    let c : BuildCache := { directory }
    match (d.read? c.indexPath).bind CacheIndex.parse? with
    | none => (.ok c, d)
    | some index =>
      if index.version = CacheIndex.currentVersion && index.entries.isSome then
        (.ok { c with index }, d)
      else
        match c.clear d with
        | (none, c, d) => (.ok c, d)
        | (some e, _, d) => (.error e.text, d)

/-- The path of the file for the code of a source. -/
def fileFor (c : BuildCache) (path hash : Text) : Text :=
  Path.join [c.directory,
    (contentHash path).take 16 ++ "_" ++ hash.take 16 ++ compiledExtension]

/-- Removes the entry of a source file, and its code. -/
def drop (path : Text) (c : BuildCache) (d : Disk) : BuildCache × Disk :=
  match c.index.get? path with
  | none => (c, d)
  | some e =>
    let index := c.index.erase path
    ({ c with index := { index with totalSize := index.totalSize - e.size } },
      d.discard e.cacheFile)

/-- Removes entries one after the other. -/
def dropAll (entries : List CacheEntry) (c : BuildCache) (d : Disk) : BuildCache × Disk :=
  entries.foldl (fun (c, d) e => c.drop e.sourcePath d) (c, d)

/-- The first entries that have at least the given size together with what is gone already; all of
them if they have not. -/
def upToSize (target : Int64) : (gone : Int64) → List CacheEntry → List CacheEntry
  | _, [] => []
  | gone, e :: es => if target ≤ gone then [] else e :: upToSize target (gone + e.size) es

/-- Removes what is too much, the oldest first: by number, then by size. -/
def trim (c : BuildCache) (d : Disk) : BuildCache × Disk :=
  let (c, d) := c.dropAll (c.index.byAge.take (c.index.all.length - maxEntries)) d
  if maxSize < c.index.totalSize then
    c.dropAll (upToSize (c.index.totalSize - maxSize) 0 c.index.byAge) d
  else (c, d)

/-- The code of a source file that has not changed since it was compiled. An entry that is of no use
is removed. -/
def get (language : Language) (now : Instant) (path : Text) (c : BuildCache) (d : Disk) :
    Option Code × BuildCache × Disk :=
  if !c.enabled then (none, c, d)
  else
    match d.read? path, c.index.get? path with
    | some source, some e =>
      if e.sourceHash ≠ contentHash source then (none, c.drop path d)
      else
        match Image.readFile language d e.cacheFile with
        | .error _ => (none, c.drop path d)
        | .ok code =>
          let e := { e with accessedAt := now, accessCount := e.accessCount + 1 }
          (some code, { c with index := c.index.insert path e }, d)
    | _, _ => (none, c, d)

/-- Puts the code of a source file into the cache. -/
def put (now : Instant) (path : Text) (code : Code) (c : BuildCache) (d : Disk) :
    Option CacheError × BuildCache × Disk :=
  if !c.enabled then (none, c, d)
  else
    match d.read path with
    | .error e => (some (.disk e), c, d)
    | .ok source =>
      match Image.encode 0 code with
      | .error e => (some (.code e), c, d)
      | .ok bytes =>
        let hash := contentHash source
        let file := c.fileFor path hash
        match d.write file bytes with
        | .error e => (some (.unwritable e), c, d)
        | .ok d =>
          -- The entry that is replaced may have the same file, which is gone then.
          let (c, d) := c.drop path d
          let e : CacheEntry := { sourcePath := path, sourceHash := hash, cacheFile := file
                                  size := Int64.ofNat bytes.length, compiledAt := now,
                                    accessedAt := now
                                  accessCount := 1 }
          let index := c.index.insert path e
          let index := { index with totalSize := index.totalSize + e.size, updatedAt := now }
          let (c, d) := { c with index : BuildCache }.trim d
          match c.save d with
          | .ok d => (none, c, d)
          | .error e => (some (.disk e), c, d)

end BuildCache

/-- Compiles a file, unless a cache has its code; whether it had. Code that is compiled is put into
the cache. -/
def compileCached (language : Language) (now : Instant) (path : Text) (cache : Option BuildCache)
    (d : Disk) : Attempt (Code × Bool) × Option BuildCache × Disk :=
  match cache with
  | none =>
    let (outcome, logs) := compileFile d path
    ((outcome.map fun code => (code, false), logs), none, d)
  | some c =>
    match c.get language now path d with
    | (some code, c, d) => ((.ok (code, true), []), some c, d)
    | (none, c, d) =>
      match compileFile d path with
      | (.error p, logs) => ((.error p, logs), some c, d)
      | (.ok code, logs) =>
        let (error?, c, d) := c.put now path code d
        let logs := match error? with
          | none => logs
          | some e => logs ++ [⟨.warn, .plain ("cache: " ++ e.text language)⟩]
        ((.ok (code, false), logs), some c, d)

end Toolchain
