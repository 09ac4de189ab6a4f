import Toolchain.Text.Quoted

/-!
# Flags of commands

The flags before the files of a command. A flag starts with one or two minus signs; one that is not
a switch has a value, after an equals sign or as the next argument. Two minus signs alone end the
flags, and so does an argument that is no flag.

## Main definitions

* `CommandFlags`: what flags say
* `FlagFault`: what is wrong with flags
* `CommandFlags.parse`: reads flags
* `Flag.usage`: the list of flags
-/

namespace Toolchain

/-- What flags say. -/
structure CommandFlags where
  json : Bool := false
  output : Text := []
  format : Text := []
  noCache : Bool := false
  verbose : Bool := false
  write : Bool := false
  check : Bool := false
  deps : Bool := false
  deriving DecidableEq, Repr

/-- How a flag is put. -/
inductive FlagSetter where
  | switch (put : Bool → CommandFlags → CommandFlags)
  | value (put : Text → CommandFlags → CommandFlags)

/-- A flag. -/
structure Flag where
  name : String
  setter : FlagSetter
  description : String

namespace Flag

/-- All flags, by name. -/
def all : List Flag := [
  ⟨"check", .switch fun b f => { f with check := b }, "only report files fmt would change"⟩,
  ⟨"deps", .switch fun b f => { f with deps := b },
    "also build local modules imported by the inputs"⟩,
  ⟨"format", .value fun t f => { f with format := t }, "bytecode format: native | cbor"⟩,
  ⟨"json", .switch fun b f => { f with json := b }, "JSON output"⟩,
  ⟨"no-cache", .switch fun b f => { f with noCache := b }, "recompile every file"⟩,
  ⟨"o", .value fun t f => { f with output := t }, "output directory"⟩,
  ⟨"v", .switch fun b f => { f with verbose := b }, "verbose logging"⟩,
  ⟨"w", .switch fun b f => { f with write := b }, "write fmt result back to the file"⟩]

/-- The flag with a name. -/
def find? (name : Text) : Option Flag := all.find? fun f => Text.ofString f.name == name

/-- The lines about a flag; a short switch has its description on the same line. -/
def entry (f : Flag) : Text :=
  let head := "  -" ++ f.name ++ (match f.setter with
    | .switch _ => ""
    | .value _ => " string")
  head ++ (if head.length ≤ 4 then "\t" else "\n    \t") ++ f.description ++ "\n"

/-- The list of flags of a command. -/
def usage (command : String) : Text := "Usage of " ++ command ++ ":\n" ++ all.flatMap entry

end Flag

/-- What is wrong with flags. -/
inductive FlagFault where
  /-- The list of flags is asked for. -/
  | help
  | badSyntax (argument : Text)
  | undefined (name : Text)
  | missingValue (name : Text)
  | notBoolean (name value : Text)
  deriving DecidableEq, Repr

namespace FlagFault

/-- A fault in words; none if nothing is wrong. -/
def text? : FlagFault → Option Text
  | help => none
  | badSyntax argument => some ("bad flag syntax: " ++ argument)
  | undefined name => some ("flag provided but not defined: -" ++ name)
  | missingValue name => some ("flag needs an argument: -" ++ name)
  | notBoolean name value =>
    some ("invalid boolean value " ++ value.quoted ++ " for -" ++ name ++ ": parse error")

end FlagFault

/-- The truth value that a text writes. -/
def boolOfText? (t : Text) : Option Bool :=
  let isIn (words : List String) : Bool := words.any fun w => Text.ofString w == t
  if isIn ["1", "t", "T", "TRUE", "true", "True"] then some true
  else if isIn ["0", "f", "F", "FALSE", "false", "False"] then some false
  else none

/-- An argument seen as a flag. -/
inductive FlagArgument where
  /-- The argument is no flag. -/
  | none
  /-- The argument ends the flags. -/
  | stop
  | bad
  | named (name : Text) (value : Option Text)
  deriving DecidableEq, Repr

namespace FlagArgument

/-- The byte that a flag starts with. -/
def minus : UInt8 := '-'.toUInt8

/-- The byte before a value. -/
def equals : UInt8 := '='.toUInt8

/-- What stands after the minus signs of a flag. -/
def ofBody : Text → FlagArgument
  | [] => bad
  | b :: rest =>
    if b = minus ∨ b = equals then bad
    else
      let name := b :: rest.takeWhile fun c => c ≠ equals
      match rest.dropWhile fun c => c ≠ equals with
      | [] => named name .none
      | _ :: value => named name (some value)

/-- An argument seen as a flag. -/
def ofText : Text → FlagArgument
  | [] | [_] => none
  | a :: b :: rest =>
    if a ≠ minus then none
    else if b = minus then (if rest.isEmpty then stop else ofBody rest)
    else ofBody (b :: rest)

end FlagArgument

namespace CommandFlags

/-- Reads flags, up to the first argument that is none; what stands from there on. -/
def parse (flags : CommandFlags) : List Text → Except FlagFault (CommandFlags × List Text)
  | [] => .ok (flags, [])
  | argument :: rest =>
    match FlagArgument.ofText argument with
    | .none => .ok (flags, argument :: rest)
    | .stop => .ok (flags, rest)
    | .bad => .error (.badSyntax argument)
    | .named name value =>
      match Flag.find? name with
      | none =>
        if name = Text.ofString "help" ∨ name = Text.ofString "h" then .error .help
        else .error (.undefined name)
      | some ⟨_, .switch put, _⟩ =>
        match value with
        | none => (put true flags).parse rest
        | some t =>
          match boolOfText? t with
          | some b => (put b flags).parse rest
          | none => .error (.notBoolean name t)
      | some ⟨_, .value put, _⟩ =>
        match value, rest with
        | some t, rest => (put t flags).parse rest
        | none, t :: rest => (put t flags).parse rest
        | none, [] => .error (.missingValue name)

end CommandFlags

end Toolchain
