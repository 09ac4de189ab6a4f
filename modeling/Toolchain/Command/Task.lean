import Toolchain.Bytecode.Disassembly
import Toolchain.Command.Flags
import Toolchain.Command.Session
import Toolchain.Format.Basic
import Toolchain.Project.Cache
import Toolchain.Project.Modules
import Toolchain.Prompt.Session

/-!
# What commands do

The commands that work on files: they show the tokens, the tree or the code of a program, compile
it, check it or lay it out. Each gives back whether it succeeded.

## Main definitions

* `Session.setup`: the flags and files of a command
* `Session.tokens`, `Session.tree`, `Session.disassemble`
* `Session.build`, `Session.check`, `Session.layOut`
* `Session.prompt`, `Session.newProject`
-/

namespace Toolchain

/-- The version of the tools. -/
def toolsVersion : Text := Text.ofString "0.1.0"

namespace Token

/-- A token as a value. -/
def json (t : Token) : Json :=
  .object [("type", .ofString t.kind.name), ("value", .ofString t.value),
    ("line", .ofNat t.pos.line), ("column", .ofNat t.pos.column)]

end Token

namespace Session

/-! ## Flags and files -/

/-- The flags of a command and what stands after them; none if they are wrong. -/
def flags (command : String) (arguments : List Text) :
    Session (Option (CommandFlags × List Text)) := do
  match CommandFlags.parse {} arguments with
  | .ok parsed => return some parsed
  | .error fault =>
    if let some t := fault.text? then complain (t ++ "\n")
    complain (Flag.usage command)
    return none

/-- The files that a command works on: those given, or the project's own; none if there are no
files. -/
def inputs (given : List Text) : Session (Option (List Text)) := do
  let config := (← read).config
  if !given.isEmpty then return some given
  if !config.path.isEmpty && !config.main.isEmpty then return some [config.mainFile]
  complain (← phrase .noInput [])
  return none

/-- The flags and files of a command, whose log is started; none if something is wrong. -/
def setup (command : String) (arguments : List Text) :
    Session (Option (CommandFlags × List Text)) := do
  let some (flags, given) ← flags command arguments | return none
  let some files ← inputs given | return none
  if ← startLog flags.verbose then return some (flags, files) else return none

/-- A command that works on files one after the other. -/
def onFiles (command : String) (arguments : List Text)
    (task : CommandFlags → Text → Session (List Problem)) : Session Bool := do
  let some (flags, files) ← setup command arguments | return false
  forEach files (task flags)

/-! ## Showing programs -/

/-- Shows the tokens of a file. -/
def fileTokens (flags : CommandFlags) (path : Text) : Session (List Problem) := do
  match (← disk).read path with
  | .error e => return [.plain e.text]
  | .ok source =>
    let (tokens, errors) := tokenize source
    if flags.json then print (Json.indented (.array (tokens.map Token.json)) ++ "\n")
    else print (tokens.flatMap fun t => t.text ++ "\n")
    return errors.map fun e => .diagnostic
      { code := .invalidToken, message := e.message, file := path
        line := e.pos.line, column := e.pos.column }

/-- Shows the tree of a file. -/
def fileTree (flags : CommandFlags) (path : Text) : Session (List Problem) := do
  match ← logged (parseFile (← disk) path) with
  | .error p => return [p]
  | .ok parsed =>
    if flags.json then print (parsed.root.outline.json.indented ++ "\n")
    else print (parsed.root.dump ++ "\n")
    return []

/-- The code of a file: that of a compiled file, or that of a program. -/
def codeOf (path : Text) : Session (Except Problem Code) := do
  let language := (← read).language
  let d ← disk
  if path.endsWith interchangeExtension then
    return (Interchange.readFile language d path).mapError .plain
  else if path.endsWith compiledExtension then
    return (Image.readFile language d path).mapError .plain
  else logged (compileFile d path)

/-- Shows the code of a file. -/
def fileCode (path : Text) : Session (List Problem) := do
  match ← codeOf path with
  | .error p => return [p]
  | .ok code =>
    print code.disassembly
    return []

/-- The command that shows tokens. -/
def tokens (arguments : List Text) : Session Bool := onFiles "tokens" arguments fileTokens

/-- The command that shows trees. -/
def tree (arguments : List Text) : Session Bool := onFiles "ast" arguments fileTree

/-- The command that shows code. -/
def disassemble (arguments : List Text) : Session Bool :=
  onFiles "dis" arguments fun _ path => fileCode path

/-! ## Compiling and checking -/

/-- The two forms of compiled files. -/
inductive CodeFormat where
  | native
  | interchange
  deriving DecidableEq, Repr

namespace CodeFormat

/-- The form with a name. -/
def ofName? (name : Text) : Option CodeFormat :=
  if name = Text.ofString "native" then some native
  else if name = Text.ofString "cbor" then some interchange
  else none

end CodeFormat

/-- Writes code to a file of a form, and gives the path of the file. -/
def writeCode (format : CodeFormat) (target : Text) (code : Code) : Session (Except Text Text) := do
  let language := (← read).language
  let d ← disk
  let (path, written) := match format with
    | .native => (target, Image.writeFile language d target code)
    | .interchange =>
      let path := Path.withoutSuffix compiledExtension target ++ interchangeExtension
      (path, Interchange.writeFile language d path code)
  match written with
  | .error e => return .error e
  | .ok d =>
    setDisk d
    return .ok path

/-- Compiles a module and writes its code. -/
def buildModule (format : CodeFormat) (directory : Text) (m : SourceModule)
    (cache : Option BuildCache) : Session (List Problem × Option BuildCache) := do
  let context ← read
  let (attempt, cache, d) := compileCached context.language context.now m.path cache (← disk)
  setDisk d
  match ← logged attempt with
  | .error p => return ([p], cache)
  | .ok (code, hit) =>
    match ← writeCode format (m.outputPath directory) code with
    | .error e => return ([.plain e], cache)
    | .ok target =>
      if hit then print (← phrase .upToDate [.text m.path])
      else print (← phrase .buildOK [.text m.path, .text target])
      return ([], cache)

/-- The cache of the project; none if it is not wanted or cannot be used. -/
def openCache (flags : CommandFlags) : Session (Option BuildCache) := do
  let config := (← read).config
  if !config.cache || flags.noCache then return none
  let (opened, d) :=
    BuildCache.inDirectory (Path.join [config.root, BuildCache.directoryName]) (← disk)
  setDisk d
  match opened with
  | .ok cache => return some cache
  | .error e =>
    log [⟨.warn, .plain ("cache disabled: " ++ e)⟩]
    return none

/-- The modules to build: the files, and what they import if that is wanted. -/
def modulesOf (flags : CommandFlags) (files : List Text) : Session (List SourceModule) := do
  let context ← read
  if !flags.deps && !context.config.followImports then return files.map fun path => { path }
  let d ← disk
  let search := ModuleSearch.start d context.config.root (context.environment.value "PYRA_PATH")
  let (modules, search) := search.collect d files
  log search.logs
  return modules

/-- The command that compiles. -/
def build (arguments : List Text) : Session Bool := do
  let some (flags, files) ← setup "build" arguments | return false
  let config := (← read).config
  let name := if flags.format.isEmpty then config.format else flags.format
  match CodeFormat.ofName? name with
  | none =>
    complain ("error: invalid format " ++ name.quoted ++ ": want native or cbor\n")
    return false
  | some format =>
    let directory := if flags.output.isEmpty then config.outputDirectory else flags.output
    let cache ← openCache flags
    Prod.fst <$> forEachWith cache (← modulesOf flags files) (buildModule format directory)

/-- Checks a file: it compiles, and its code is sound. -/
def fileCheck (path : Text) : Session (List Problem) := do
  match ← logged (compileFile (← disk) path) with
  | .error p => return [p]
  | .ok code =>
    match code.verify with
    | .error e => return [.plain (e.text (← read).language)]
    | .ok _ =>
      print (← phrase .checkOK [.text path])
      return []

/-- The command that checks. -/
def check (arguments : List Text) : Session Bool :=
  onFiles "check" arguments fun _ path => fileCheck path

/-! ## Laying out -/

/-- The problem with a program that is not laid out. -/
def layoutProblem (language : Language) : FormatError → Problem
  | .program d => .diagnostic d
  | e => .plain (e.text language)

/-- Lays a file out: the text is shown, or written back, or only compared. Whether the file should
change is given if it is compared. -/
def fileLayout (flags : CommandFlags) (path : Text) : Session (List Problem × Bool) := do
  let context ← read
  match (← disk).read path with
  | .error e => return ([.plain e.text], false)
  | .ok source =>
    match format context.config.formatOptions path source with
    | .error e => return ([layoutProblem context.language e], false)
    | .ok text =>
      if flags.check then
        if text = source then return ([], false)
        print (← phrase .notFormatted [.text path])
        return ([], true)
      if !flags.write then
        print text
        return ([], false)
      if text = source then return ([], false)
      match (← disk).write path text with
      | .error e => return ([.plain e.text], false)
      | .ok d =>
        setDisk d
        log [⟨.info, .plain ("formatted " ++ path)⟩]
        print (← phrase .formatted [.text path])
        return ([], false)

/-- The command that lays files out; it fails if a file that is only compared should change. -/
def layOut (arguments : List Text) : Session Bool := do
  let some (flags, files) ← setup "fmt" arguments | return false
  let (fine, changed) ← forEachWith false files fun path changed => do
    let (problems, changes) ← fileLayout flags path
    return (problems, changed || changes)
  return fine && !changed

/-! ## The prompt, and new projects -/

/-- How the prompt presents itself, once its flags are read and its log is started; none if
something is wrong. -/
def promptSettings (arguments : List Text) : Session (Option PromptSettings) := do
  let some (flags, _) ← flags "repl" arguments | return none
  if !(← startLog flags.verbose) then return none
  return some { version := toolsVersion, rendering := (← read).rendering }

/-- The command that starts the prompt. -/
def prompt (arguments : List Text) : Session Bool := do
  let some settings ← promptSettings arguments | return false
  let context ← read
  let session := PromptSession.run settings context.language (← disk) context.input
  log session.logs
  print session.shown
  return true

/-- The program of a new project. -/
def firstProgram : Text := "def main():\n    print('Hello, Pyra!')\n\n\nmain()\n"

/-- Writes a file, and says so; whether that was possible. -/
def create (path name content failure : Text) : Session Bool := do
  match (← disk).write path content with
  | .error e =>
    complain ("error: " ++ failure ++ e.text ++ "\n")
    return false
  | .ok d =>
    setDisk d
    print (← phrase .initCreated [.text name])
    return true

/-- The command that starts a project in a directory, the current one if none is given: the file of
settings, and a program if there is none. -/
def newProject (arguments : List Text) : Session Bool := do
  let d ← disk
  let directory := arguments.headD d.currentPath
  let path := Path.join [directory, Config.fileName]
  if d.contains path then
    complain (← phrase .configExists [.text Config.fileName])
    return false
  let config := Config.forDirectory directory
  if !(← create path Config.fileName config.toml "failed to write config file: ") then return false
  let main := Path.join [directory, config.main]
  match (← disk).stat main with
  | .error .missing => create main config.main firstProgram []
  | _ => return true

end Session

end Toolchain
