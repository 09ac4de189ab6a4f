import Toolchain.Project.Build

/-!
# The modules of a project

Starting from some files, the modules that they import are looked up in the directories of the
project. A module that is found nowhere is not part of the project.

## Main definitions

* `ImportStatement`, `Root.imports`: the imports of a program
* `SourceModule`, `SourceModule.outputPath`: a file that is to be compiled
* `resolveImport?`: the file of a module
* `ModuleSearch`, `ModuleSearch.collect`: all modules that some files need
-/

namespace Toolchain

/-- An import of a program. -/
structure ImportStatement where
  /-- The name of the module, with dots; empty if the names are modules themselves. -/
  module : Text
  /-- The names that are imported from the module. -/
  names : List Text := []
  /-- How many directories above the module is looked up; zero for the project's directories. -/
  level : Nat := 0
  /-- Whether names are imported from the module. -/
  fromModule : Bool := false
  line : Nat
  deriving DecidableEq, Repr

mutual

/-- The imports of a statement and of the statements in it. -/
def Stmt.imported : Stmt Mark → List ImportStatement
  | .imports m names => names.map fun a => { module := Text.ofString a.name, line := m.pos.line }
  | .importFrom m module names level =>
    [{ module := Text.ofString (module.getD ""), names := names.map fun a => Text.ofString a.name
       level, fromModule := true, line := m.pos.line }]
  | .functionDef _ _ _ body | .classDef _ _ _ body | .forLoop _ _ _ body | .whileLoop _ _ body =>
    Stmt.importedIn body
  | .ifElse _ _ body orelse => Stmt.importedIn body ++ Stmt.importedIn orelse
  | .tryExcept _ body handlers orelse final =>
    Stmt.importedIn body ++ Stmt.importedByHandlers handlers ++ Stmt.importedIn orelse ++
      Stmt.importedIn final
  | _ => []

/-- The imports of statements. -/
def Stmt.importedIn : List (Stmt Mark) → List ImportStatement
  | [] => []
  | s :: ss => Stmt.imported s ++ Stmt.importedIn ss

/-- The imports of handlers of exceptions. -/
def Stmt.importedByHandlers : List (Handler Mark (Expr Mark) (Stmt Mark)) → List ImportStatement
  | [] => []
  | ⟨_, _, _, body⟩ :: rest => Stmt.importedIn body ++ Stmt.importedByHandlers rest

end

/-- The imports of a program, in order. -/
def Root.imports : Root Mark → List ImportStatement
  | .module _ body => Stmt.importedIn body
  | .expression .. => []

/-- The ending of source files. -/
def sourceExtension : Text := Text.ofString ".py"

/-- The file that makes a directory a module. -/
def packageFile : Text := Text.ofString "__init__.py"

/-- The byte between the names of a module. -/
def dot : UInt8 := '.'.toUInt8

/-- A file that is to be compiled. -/
structure SourceModule where
  name : Text := Text.ofString "__main__"
  path : Text
  /-- Whether the file was asked for, and not found by an import. -/
  isEntry : Bool := true
  deriving DecidableEq, Repr

namespace SourceModule

/-- Where the code of a module is written. A file that was asked for stands in the directory itself,
another one in a directory for each name above its own. -/
def outputPath (m : SourceModule) (directory : Text) : Text :=
  if m.isEntry then Toolchain.outputPath m.path directory
  else
    let names := m.name.splitAt dot
    let above := if Path.base m.path = packageFile then names else names.dropLast
    Toolchain.outputPath m.path (Path.join (directory :: above))

end SourceModule

/-- The file of a module in the first of some directories that has it: a source file, or a directory
that is a module. -/
def resolveImport? (d : Disk) (directories : List Text) (name : Text) : Option Text :=
  let relative := Path.join (name.splitAt dot)
  let candidates := directories.flatMap fun directory =>
    [Path.join [directory, relative ++ sourceExtension],
      Path.join [directory, relative, packageFile]]
  (candidates.find? d.isFile).map (Path.absolute d.currentPath)

/-- The beginnings of a list that are not empty. -/
def beginnings {α : Type} (xs : List α) : List (List α) :=
  (List.range xs.length).map fun n => xs.take (n + 1)

/-- A search for the modules that files need. -/
structure ModuleSearch where
  /-- The directories in which modules are looked up. -/
  directories : List Text := []
  /-- The files that were found. -/
  found : List Text := []
  logs : List LogEntry := []

namespace ModuleSearch

/-- Adds a directory at the end, unless it is there. -/
def addDirectory (d : Disk) (s : ModuleSearch) (directory : Text) : ModuleSearch :=
  let directory := Path.absolute d.currentPath directory
  if s.directories.contains directory then s
  else { s with directories := s.directories ++ [directory] }

/-- A search in a root directory, and in the directories of a list with colons between them. -/
def start (d : Disk) (root searchPath : Text) : ModuleSearch :=
  let extra := (searchPath.splitAt ':'.toUInt8).filter fun p => !p.isEmpty
  (root :: extra).foldl (addDirectory d) {}

/-- Adds a message to the log. -/
def info (s : ModuleSearch) (message : Text) : ModuleSearch :=
  { s with logs := s.logs ++ [⟨.info, .plain message⟩] }

/-- Whether a file was found before. -/
def isFound (d : Disk) (s : ModuleSearch) (path : Text) : Bool :=
  s.found.contains (Path.absolute d.currentPath path)

/-- Notes that a file was found. -/
def note (d : Disk) (s : ModuleSearch) (path : Text) : ModuleSearch :=
  { s with found := Path.absolute d.currentPath path :: s.found }

/-- The directories in which an import of a file is looked up. -/
def directoriesFor (d : Disk) (s : ModuleSearch) (file : Text) (i : ImportStatement) : List Text :=
  if i.level = 0 then s.directories
  else [Nat.repeat Path.parent i.level (Path.absolute d.currentPath file)]

/-- The modules that an import may need, and whether it is an error if one is missing: each module
above the imported one, and what is imported from it, which may be a module. -/
def wanted (i : ImportStatement) : List (Text × Bool) :=
  let above := if i.module.isEmpty then [] else
    (beginnings (i.module.splitAt dot)).map fun names => (Text.join [dot] names, true)
  let names := if i.fromModule then i.names.filter (· ≠ Text.ofString "*") else []
  above ++ names.map fun name =>
    if i.module.isEmpty then (name, true) else (i.module ++ dot :: name, false)

/-- The files of an import, and the search with a note on each module that is missing. -/
def resolve (d : Disk) (s : ModuleSearch) (file : Text) (i : ImportStatement) :
    List Text × ModuleSearch :=
  let directories := s.directoriesFor d file i
  (wanted i).foldl (fun (paths, s) (name, required) =>
    match resolveImport? d directories name with
    | some path => (paths ++ [path], s)
    | none =>
      if required then
        (paths, s.info (file ++ ":" ++ (i.line : Text) ++ ": no local module " ++
          name ++ ", skipped"))
      else (paths, s)) ([], s)

/-- The name of the module of a file, from the first directory that the file lies in. -/
def moduleName (s : ModuleSearch) (path : Text) : Text :=
  let names := s.directories.filterMap fun directory =>
    let relative := Path.relative directory path
    if relative.startsWith Path.up then none
    else
      let relative := Path.withoutSuffix sourceExtension relative
      let relative := Path.withoutSuffix (Text.ofString "/__init__") relative
      some (relative.map fun b => if b = Path.slash then dot else b)
  names.headD (Path.withoutSuffix sourceExtension (Path.base path))

/-- How a file is shown: from the current directory, if it lies in it. -/
def displayPath (d : Disk) (path : Text) : Text :=
  let relative := Path.relative d.currentPath path
  if relative.startsWith Path.up then path else relative

/-- The modules that an import of a file adds. -/
def follow (d : Disk) (file : Text) (modules : List SourceModule × ModuleSearch)
    (i : ImportStatement) : List SourceModule × ModuleSearch :=
  let (paths, s) := modules.2.resolve d file i
  paths.foldl (fun (ms, s) path =>
    if s.isFound d path then (ms, s)
    else
      (ms ++ [{ name := s.moduleName path, path := displayPath d path, isEntry := false }],
        s.note d path)) (modules.1, s)

/-- The imports of a file; none if it cannot be parsed. -/
def importsOf (d : Disk) (path : Text) : List ImportStatement :=
  match (parseFile d path).1 with
  | .ok p => p.root.imports
  | .error _ => []

/-- Follows the imports of the modules in a queue, each of which may add others at the end; at most
`bound` modules. -/
def followAll (d : Disk) : (bound : Nat) → List SourceModule → ModuleSearch →
    List SourceModule × ModuleSearch
  | 0, queue, s => (queue, s)
  | _, [], s => ([], s)
  | bound + 1, m :: queue, s =>
    let (queue, s) := (importsOf d m.path).foldl (follow d m.path) (queue, s)
    let (rest, s) := followAll d bound queue s
    (m :: rest, s)

/-- The modules for files that were asked for, each file once. -/
def entries (d : Disk) (s : ModuleSearch) (paths : List Text) : List SourceModule × ModuleSearch :=
  paths.foldl (fun (ms, s) path =>
    if s.isFound d path then (ms, s) else (ms ++ [{ path }], s.note d path)) ([], s)

/-- All modules that some files need: the files themselves, then those that they import, and so on.
The directories of the files come before the others. -/
def collect (d : Disk) (s : ModuleSearch) (paths : List Text) : List SourceModule × ModuleSearch :=
  let own := paths.reverse.map fun p => Path.absolute d.currentPath (Path.parent p)
  let s := { s with directories := own ++ s.directories }
  let (queue, s) := s.entries d paths
  let (modules, s) := followAll d (paths.length + d.entries.length) queue s
  (modules, s.info ("collected " ++ (modules.length : Text) ++ " module(s) from " ++
    (paths.length : Text) ++ " entry file(s)"))

end ModuleSearch

end Toolchain
