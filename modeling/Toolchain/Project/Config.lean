import Toolchain.Diagnostic.Log
import Toolchain.Disk.Basic
import Toolchain.Format.Options
import Toolchain.Toml.Basic
import Toolchain.Toml.Parser

/-!
# Project settings

The settings of a project stand in a file of its root directory. What the file does not say keeps
its default, keys that are not known are ignored, and names are matched in any case.

## Main definitions

* `Config`: the settings
* `Config.parse`: the settings that a file says
* `Config.root`, `Config.outputDirectory`, `Config.mainFile`: paths
* `Config.find?`, `Config.discover`: the settings for a place
* `Config.toml`, `Config.forDirectory`: the file of settings, and settings for a new project
-/

namespace Toolchain

/-- The settings of a project. -/
structure Config where
  name : Text := Text.ofString "app"
  /-- The file that the project starts at, from the root directory. -/
  main : Text := Text.ofString "main.py"
  /-- The directory that compiled files are written to. -/
  output : Text := Text.ofString "build"
  /-- The form of compiled files: `native` or `cbor`. -/
  format : Text := Text.ofString "native"
  /-- Whether what was compiled before is used again. -/
  cache : Bool := true
  /-- Whether imported modules are compiled too. -/
  followImports : Bool := false
  indentStyle : Text := Text.ofString "spaces"
  indentSize : Int := 4
  log : LogSettings := {}
  locale : Text := Text.ofString "en"
  /-- The path of the file of settings; empty if there is none. -/
  path : Text := []
  deriving DecidableEq, Repr

/-- A rule that settings break. -/
inductive ConfigFault where
  | format (given : Text)
  | indentStyle (given : Text)
  | indentSize (given : Int)
  | logLevel (given : Text)
  | logEncoding (given : Text)
  | locale (given : Text)
  deriving DecidableEq, Repr

namespace ConfigFault

/-- A broken rule in words. -/
def text : ConfigFault → Text
  | format given => "build.format must be \"native\" or \"cbor\", got " ++ given.quoted
  | indentStyle given => "fmt.indent_style must be spaces or tabs, got " ++ given.quoted
  | indentSize given => "fmt.indent_size must be between 1 and 16, got " ++ Text.ofInt given
  | logLevel given =>
    "log.level must be one of debug, info, warn, error, got " ++ given.quoted
  | logEncoding given => "log.encoding must be console or json, got " ++ given.quoted
  | locale given => "lang.locale must be en or zh, got " ++ given.quoted

end ConfigFault

/-- Why there are no settings. -/
inductive ConfigError where
  /-- The file is no document, or a value has the wrong type. -/
  | malformed
  | fault (f : ConfigFault)
  deriving DecidableEq, Repr

namespace ConfigError

/-- An error in words. -/
def text : ConfigError → Text
  | malformed => "toml: malformed document"
  | fault f => f.text

end ConfigError

/-- A group of settings. -/
inductive ConfigSection where
  | project | build | fmt | log | lang
  deriving DecidableEq, Repr

namespace ConfigSection

/-- The group with a name, in any case. -/
def ofName? (name : Text) : Option ConfigSection :=
  match name.lower.toStringLossy with
  | "project" => some project
  | "build" => some build
  | "fmt" => some fmt
  | "log" => some log
  | "lang" => some lang
  | _ => none

/-- How a value is put into a setting of a group, if there is such a setting: the value has to be of
the right type. -/
def setting? (s : ConfigSection) (name : Text) :
    Option (Toml.Value → Config → Option Config) :=
  let string (put : Text → Config → Config) : Option (Toml.Value → Config → Option Config) :=
    some fun v c => v.string?.map fun t => put t c
  let bool (put : Bool → Config → Config) : Option (Toml.Value → Config → Option Config) :=
    some fun v c => v.bool?.map fun b => put b c
  match s, name.lower.toStringLossy with
  | project, "name" => string fun t c => { c with name := t }
  | project, "main" => string fun t c => { c with main := t }
  | build, "output" => string fun t c => { c with output := t }
  | build, "format" => string fun t c => { c with format := t }
  | build, "cache" => bool fun b c => { c with cache := b }
  | build, "follow_imports" => bool fun b c => { c with followImports := b }
  | fmt, "indent_style" => string fun t c => { c with indentStyle := t }
  | fmt, "indent_size" => some fun v c => v.integer?.map fun n => { c with indentSize := n }
  | log, "level" => string fun t c => { c with log := { c.log with level := t } }
  | log, "encoding" => string fun t c => { c with log := { c.log with encoding := t } }
  | log, "file" => string fun t c => { c with log := { c.log with file := t } }
  | lang, "locale" => string fun t c => { c with locale := t }
  | _, _ => none

/-- Puts a value into a setting of a group; one that is not known is ignored. -/
def assign (s : ConfigSection) (key : Toml.Key) (v : Toml.Value) (c : Config) : Option Config :=
  match key with
  | [] => none
  | name :: rest =>
    match s.setting? name with
    | none => some c
    | some put => if rest.isEmpty then put v c else none

end ConfigSection

/-- What the keys below a header belong to. -/
inductive ConfigScope where
  | root
  | group (s : ConfigSection)
  /-- A single setting, which has no keys. -/
  | setting
  /-- Something that is not known. -/
  | unknown
  deriving DecidableEq, Repr

namespace ConfigScope

/-- What the keys below the header of a table belong to. -/
def ofTable? : Toml.Key → Option ConfigScope
  | [] => none
  | name :: rest =>
    match ConfigSection.ofName? name, rest with
    | none, _ => some unknown
    | some s, [] => some (group s)
    | some s, name :: rest =>
      match s.setting? name, rest with
      | none, _ => some unknown
      | some _, [] => some setting
      | some _, _ => none

/-- What the keys below the header of a table of an array belong to: nothing that is known is an
array. -/
def ofArrayTable? (key : Toml.Key) : Option ConfigScope :=
  match ofTable? key with
  | some unknown => some unknown
  | _ => none

/-- Puts the value of a key into the settings. -/
def assign (scope : ConfigScope) (key : Toml.Key) (v : Toml.Value) (c : Config) : Option Config :=
  match scope with
  | unknown => some c
  | setting => none
  | group s => s.assign key v c
  | root =>
    match key with
    | [] => none
    | name :: rest =>
      match ConfigSection.ofName? name with
      | none => some c
      | some s =>
        match rest, v with
        | [], .table entries => entries.foldlM (fun c (key, v) => s.assign key v c) c
        | [], _ => none
        | rest, v => s.assign rest v c

end ConfigScope

/-- Settings that are being read. -/
structure ConfigReader where
  keys : Toml.Keys := {}
  scope : ConfigScope := .root
  config : Config := {}

namespace ConfigReader

/-- Reads one expression. Below a header that is not known, keys are not looked at. -/
def step (r : ConfigReader) : Toml.Expression → Option ConfigReader
  | .pair key v =>
    if r.scope = .unknown then some r
    else do
      let keys ← r.keys.pair? key v
      let config ← r.scope.assign key v r.config
      return { r with keys, config }
  | .table key => do
    return { r with keys := ← r.keys.table? key, scope := ← ConfigScope.ofTable? key }
  | .arrayTable key => do
    return { r with keys := ← r.keys.arrayTable? key, scope := ← ConfigScope.ofArrayTable? key }

end ConfigReader

namespace Config

/-- Whether a text is one of some words. -/
def isOneOf (t : Text) (words : List String) : Bool := words.any fun w => Text.ofString w = t

/-- The first rule that settings break. -/
def fault? (c : Config) : Option ConfigFault :=
  if !isOneOf c.format ["native", "cbor"] then some (.format c.format)
  else if !isOneOf c.indentStyle ["spaces", "tabs"] then some (.indentStyle c.indentStyle)
  else if c.indentSize < 1 || 16 < c.indentSize then some (.indentSize c.indentSize)
  else if !isOneOf c.log.level.lower ["debug", "info", "warn", "error"] then
    some (.logLevel c.log.level)
  else if !isOneOf c.log.encoding ["console", "json"] then some (.logEncoding c.log.encoding)
  else if !isOneOf c.locale ["en", "zh"] then some (.locale c.locale)
  else none

/-- The settings that a document says. -/
def parse (document : Text) : Except ConfigError Config := do
  let some reader := (Toml.parse? document).bind fun es => es.foldlM ConfigReader.step {}
    | throw .malformed
  match reader.config.fault? with
  | some f => throw (.fault f)
  | none => return reader.config

/-- The root directory of the project; the current directory if there is no file of settings. -/
def root (c : Config) : Text := if c.path.isEmpty then "." else Path.parent c.path

/-- The directory that compiled files are written to. -/
def outputDirectory (c : Config) : Text :=
  if Path.isAbsolute c.output then c.output else Path.join [c.root, c.output]

/-- The path of the file that the project starts at; empty if there is none. -/
def mainFile (c : Config) : Text :=
  if c.main.isEmpty || Path.isAbsolute c.main then c.main else Path.join [c.root, c.main]

/-- The language of the project's messages. -/
def language (c : Config) : Language := Language.ofName c.locale.toStringLossy

/-- The name of the file of settings. -/
def fileName : Text := Text.ofString "pyra.toml"

/-- The file of settings in the nearest of some directories: the one given by the parts of its path,
the last one first, and those above it. -/
def nearest? (d : Disk) : List Text → Option Text
  | [] =>
    let path := Path.join [Path.ofParts true [], fileName]
    if d.contains path then some path else none
  | part :: above =>
    let path := Path.join [Path.ofParts true (part :: above).reverse, fileName]
    if d.contains path then some path else nearest? d above

/-- The file of settings for a path: in its directory, or in the nearest one above it. -/
def find? (d : Disk) (start : Text) : Option Text :=
  match d.stat start with
  | .error _ => none
  | .ok entry =>
    let directory := match entry with
      | .directory => start
      | .file _ => Path.parent start
    nearest? d (Path.parts (Path.absolute d.currentPath directory)).reverse

/-- Why the settings of a file are not known. -/
inductive LoadError where
  | unreadable (e : DiskError)
  | unusable (path : Text) (e : ConfigError)
  deriving DecidableEq, Repr

/-- An error in words. -/
def LoadError.text : LoadError → Text
  | unreadable e => "failed to read config file: " ++ e.text
  | unusable path e => "failed to parse config file " ++ path ++ ": " ++ e.text

/-- The settings of a file. -/
def load (d : Disk) (path : Text) : Except LoadError Config :=
  match d.read path with
  | .error e => .error (.unreadable e)
  | .ok document =>
    match parse document with
    | .error e => .error (.unusable path e)
    | .ok c => .ok { c with path }

/-- The settings for a path; the defaults if there is no file of settings. -/
def discover (d : Disk) (start : Text) : Except LoadError Config :=
  match find? d start with
  | none => .ok {}
  | some path => load d path

/-! ## New projects -/

/-- A truth value as it is written. -/
def boolText (b : Bool) : Text := if b then "true" else "false"

/-- The settings as a document. -/
def toml (c : Config) : Text :=
  "[project]\nname = " ++ Toml.quoted c.name ++ "\nmain = " ++ Toml.quoted c.main ++
  "\n\n[build]\noutput = " ++ Toml.quoted c.output ++ "\nformat = " ++ Toml.quoted c.format ++
  "\ncache = " ++ boolText c.cache ++ "\nfollow_imports = " ++ boolText c.followImports ++
  "\n\n[fmt]\nindent_style = " ++ Toml.quoted c.indentStyle ++
  "\nindent_size = " ++ Text.ofInt c.indentSize ++
  "\n\n[log]\nlevel = " ++ Toml.quoted c.log.level ++ "\nencoding = " ++
    Toml.quoted c.log.encoding ++
  "\nfile = " ++ Toml.quoted c.log.file ++
  "\n\n[lang]\nlocale = " ++ Toml.quoted c.locale ++ "\n"

/-- Whether a character may stand in the name of a new project. -/
def isNameChar (c : Char) : Bool :=
  ('a' ≤ c && c ≤ 'z') || ('0' ≤ c && c ≤ '9') || c == '-' || c == '_'

/-- A name for a project: lower-case letters, digits, and dashes for spaces, with no dash at either
end. -/
def projectName (t : Text) : Text :=
  let cs := (t.chars.map fun c => if c = ' ' then '-' else Text.lowerChar c).filter isNameChar
  let isDash (c : Char) : Bool := c == '-'
  Text.ofChars ((cs.dropWhile isDash).reverse.dropWhile isDash).reverse

/-- The settings of a new project in a directory, whose name it takes. -/
def forDirectory (directory : Text) : Config :=
  let name := projectName (Path.base directory)
  if name.isEmpty then {} else { name }

/-- How the project's programs are laid out. -/
def formatOptions (c : Config) : FormatOptions :=
  { indentStyle := c.indentStyle.toStringLossy, indentSize := c.indentSize }

end Config

end Toolchain
