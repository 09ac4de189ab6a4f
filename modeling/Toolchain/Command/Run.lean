import Toolchain.Command.Task

/-!
# The command line

A program is started with arguments, variables and files. The first argument names a command; the
language of messages may be given anywhere among the arguments.

## Main definitions

* `Invocation`: what the program is started with
* `chosenLanguage`: the language of messages
* `Invocation.prepare`: what a command finds
* `Invocation.run`: what the program writes, and the number it ends with
-/

namespace Toolchain

/-- What the program is started with. -/
structure Invocation where
  arguments : List Text
  input : Text := []
  environment : Environment := []
  now : Instant := {}
  /-- Whether problems are shown in colours. -/
  colours : Bool := false

/-- The arguments without those for the language of messages, and that language. Of several, the
last one counts. -/
def takeLanguage : List Text → List Text × Option Text
  | [] => ([], none)
  | argument :: rest =>
    let noting (given : Text) (found : List Text × Option Text) : List Text × Option Text :=
      (found.1, found.2.or (some given))
    if argument = Text.ofString "--lang" ∨ argument = Text.ofString "-lang" then
      match rest with
      | given :: rest => noting given (takeLanguage rest)
      | [] => ([argument], none)
    else if argument.startsWith (Text.ofString "--lang=") then
      noting (argument.drop 7) (takeLanguage rest)
    else if argument.startsWith (Text.ofString "-lang=") then
      noting (argument.drop 6) (takeLanguage rest)
    else
      let (others, given) := takeLanguage rest
      (argument :: others, given)

/-- Whether one text stands somewhere in another. -/
def isInside (part : Text) : Text → Bool
  | [] => part.isEmpty
  | b :: rest => Text.startsWith (b :: rest) part || isInside part rest

/-- Whether variables say that the user reads Chinese: the first one that is set decides. -/
def prefersChinese (e : Environment) : Bool :=
  match (["LC_ALL", "LC_MESSAGES", "LANG", "LANGUAGE"].map e.value).find? fun v => !v.isEmpty with
  | none => false
  | some v =>
    let v := v.lower
    v.startsWith (Text.ofString "zh") || isInside (Text.ofString "chinese") v

/-- The language of messages: as given, by a variable, by the settings of a project, or by what the
user reads. -/
def chosenLanguage (given : Text) (e : Environment) (config : Config) : Language :=
  let preset := e.value "PYRA_LANG"
  if !given.isEmpty then Language.ofName given.toStringLossy
  else if !preset.isEmpty then Language.ofName preset.toStringLossy
  else if !config.path.isEmpty then config.language
  else if prefersChinese e then .chinese
  else .english

/-- What a command is, by its name: whether it succeeds is given by the activity. -/
def commandNamed? (name : Text) : Option (List Text → Session Bool) :=
  let usage (_ : List Text) : Session Bool := do
    Session.print ((Message.entry .usage [.text toolsVersion]).text (← read).language)
    return true
  let version (_ : List Text) : Session Bool := do
    Session.print ("pyra " ++ toolsVersion ++ "\n")
    return true
  match name.toStringLossy with
  | "tokens" => some Session.tokens
  | "ast" => some Session.tree
  | "dis" => some Session.disassemble
  | "build" => some Session.build
  | "check" => some Session.check
  | "repl" => some Session.prompt
  | "fmt" => some Session.layOut
  | "init" => some Session.newProject
  | "version" | "-version" | "--version" => some version
  | "help" | "-h" | "-help" | "--help" => some usage
  | _ => none

/-- Runs the command that the arguments name; the number to end with. -/
def runCommand : List Text → Session Nat
  | [] => do
    Session.print ((Message.entry .usage [.text toolsVersion]).text (← read).language)
    return 0
  | name :: arguments => do
    match commandNamed? name with
    | some command => return if ← command arguments then 0 else 1
    | none =>
      Session.complain (← Session.phrase .unknownCommand [.text name])
      Session.complain ((Message.entry .usage [.text toolsVersion]).text (← read).language)
      return 2

namespace Invocation

/-- What the command finds, and the arguments that name it; or what is wrong with the settings. -/
def prepare (i : Invocation) (d : Disk) : Except Config.LoadError (CommandContext × List Text) := do
  let (arguments, given) := takeLanguage i.arguments
  let config ← Config.discover d (Text.ofString ".")
  return ({ language := chosenLanguage (given.getD []) i.environment config
            config, environment := i.environment, now := i.now, input := i.input
            rendering := { colours := i.colours } }, arguments)

/-- The number that the program ends with, and what it has written. -/
def run (i : Invocation) (d : Disk) : Nat × Console :=
  match i.prepare d with
  | .error e => (1, { disk := d, err := "error: " ++ e.text ++ "\n" })
  | .ok (context, arguments) => ((runCommand arguments).run context).run { disk := d }

end Invocation

end Toolchain
