import Toolchain.Bytecode.Disassembly
import Toolchain.Project.Build
import Toolchain.Prompt.Input
import Toolchain.Text.Case

/-!
# The interactive prompt

A session reads lines. What is typed is compiled as soon as it is complete, and its code is shown; a
block is complete with an empty line. A line that starts with a colon is a command.

## Main definitions

* `PromptSettings`: the version and the prompts
* `Draft`, `Draft.accept`: what is being typed, and what a line makes of it
* `Draft.action`: what a line is taken for
* `PromptSession`, `PromptSession.line`: a session, and what a line does to it
* `PromptSession.run`: a session from the first line to the last
-/

namespace Toolchain

/-- How a session presents itself. -/
structure PromptSettings where
  version : Text := Text.ofString "dev"
  primary : Text := Text.ofString ">>> "
  continued : Text := Text.ofString "... "
  rendering : Rendering := {}

/-- What is being typed. -/
structure Draft where
  text : Text := []
  /-- Whether it is not complete, so that the next line belongs to it. -/
  isPending : Bool := false
  /-- Whether it is a block, which an empty line ends. -/
  isBlock : Bool := false
  deriving DecidableEq, Repr

namespace Draft

/-- A draft with one more line. -/
def add (t : Draft) (line : Text) : Draft :=
  { t with
    text := (if t.isPending then t.text ++ "\n" else t.text) ++ line
    isBlock := t.isBlock || startsBlock line }

/-- What a line makes of a draft, and the input that is complete with it, if one is. The empty line
that ends a block does not belong to it. -/
def accept (t : Draft) (line : Text) : Draft × Option Text :=
  if t.isBlock && line.trim.isEmpty then ({}, some t.text)
  else
    let t := t.add line
    if t.isBlock || needsMore t.text then ({ t with isPending := true }, none)
    else ({}, some t.text)

end Draft

/-- A session at the prompt. -/
structure PromptSession where
  draft : Draft := {}
  /-- What was typed before, the oldest first. -/
  history : List Text := []
  /-- What was shown so far. -/
  shown : Text := []
  logs : List LogEntry := []

/-- What a line at the prompt leads to. -/
inductive PromptStep where
  | goOn (s : PromptSession)
  | leave (s : PromptSession)

/-- A command at the prompt. -/
inductive PromptCommand where
  | help
  | quit
  | load (file : Option Text)
  | history
  | unknown (name : Text)
  deriving DecidableEq, Repr

namespace PromptCommand

/-- The command of a line; its name is matched in any case. -/
def ofLine (line : Text) : PromptCommand :=
  let words := line.words
  let name := (words.headD []).lower
  match name.toStringLossy with
  | ":help" | ":h" | ":?" => help
  | ":quit" | ":q" | ":exit" => quit
  | ":load" | ":l" => load words[1]?
  | ":history" | ":hist" => history
  | _ => unknown name

/-- What the help command shows. -/
def helpText : Text :=
  "Available commands:\n" ++
  "  :help, :h, :?     Show this help message\n" ++
  "  :quit, :q, exit   Leave the prompt\n" ++
  "  :load <file>      Compile a file and show its bytecode\n" ++
  "  :history, :hist   Show input history\n" ++
  "\n" ++
  "Expressions are compiled in expression mode, anything else as statements.\n" ++
  "A line ending in ':' starts a block; finish it with an empty line.\n"

end PromptCommand

/-- What a line at the prompt is taken for. -/
inductive PromptAction where
  | leave
  | command (c : PromptCommand)
  /-- What is being typed goes on, and an input that is complete is submitted. -/
  | type (draft : Draft) (input : Option Text)
  deriving DecidableEq, Repr

/-- What a line is taken for. While a draft is pending, every line belongs to it. -/
def Draft.action (t : Draft) (line : Text) : PromptAction :=
  let trimmed := line.trim
  if !t.isPending && (trimmed = Text.ofString "exit" || trimmed = Text.ofString "quit") then .leave
  else if !t.isPending && trimmed.head? = some ':'.toUInt8 then .command (.ofLine trimmed)
  else
    let (draft, input) := t.accept line
    .type draft input

namespace PromptSession

/-- The most inputs that the history keeps. -/
def maxHistory : Nat := 1000

/-- Shows a text. -/
def display (s : PromptSession) (t : Text) : PromptSession := { s with shown := s.shown ++ t }

/-- Adds an input to the history, unless it is the same as the one before. -/
def remember (s : PromptSession) (input : Text) : PromptSession :=
  if s.history.getLast? = some input then s
  else
    let history := s.history ++ [input]
    { s with history := history.drop (history.length - maxHistory) }

/-- Shows the code that came out of compiling, or the problem; `source` gives the text of a file. -/
def conclude (settings : PromptSettings) (language : Language) (source : Text → Option Text)
    (s : PromptSession) (outcome : Attempt Code) : PromptSession :=
  let s := { s with logs := s.logs ++ outcome.2 }
  match outcome.1 with
  | .ok code => s.display code.disassembly
  | .error p => s.display (({ rendering := settings.rendering } : Report).add language source p).1

/-- Compiles what was typed, if it is more than white space. -/
def submit (settings : PromptSettings) (language : Language) (d : Disk) (s : PromptSession)
    (input : Text) : PromptSession :=
  if input.trim.isEmpty then s
  else
    let source (file : Text) : Option Text := if file = promptFile then some input else d.read? file
    (s.remember input).conclude settings language source (.ofLogged (compilePrompt input))

/-- The history with numbers. -/
def historyText (s : PromptSession) : Text :=
  s.history.zipIdx.flatMap fun (input, i) =>
    (Text.ofNat (i + 1)).padLeft 4 ' ' ++ "  " ++ input ++ "\n"

/-- What a command does. -/
def command (settings : PromptSettings) (language : Language) (d : Disk) (s : PromptSession) :
    PromptCommand → PromptStep
  | .help => .goOn (s.display PromptCommand.helpText)
  | .quit => .leave s
  | .load none => .goOn (s.display "Usage: :load <filename>\n")
  | .load (some file) => .goOn (s.conclude settings language d.read? (compileFile d file))
  | .history => .goOn (s.display s.historyText)
  | .unknown name =>
    .goOn (s.display ("Unknown command: " ++ name ++ "\nType :help for available commands.\n"))

/-- What a line at the prompt leads to. -/
def line (settings : PromptSettings) (language : Language) (d : Disk) (s : PromptSession)
    (line : Text) : PromptStep :=
  match s.draft.action line with
  | .leave => .leave s
  | .command c => s.command settings language d c
  | .type draft none => .goOn { s with draft }
  | .type draft (some input) => .goOn ({ s with draft }.submit settings language d input)

/-- The prompt for the next line. -/
def prompt (settings : PromptSettings) (s : PromptSession) : Text :=
  if s.draft.isPending then settings.continued else settings.primary

/-- What is shown when a session ends. -/
def farewell (language : Language) : Text := (Message.entry .replBye []).text language ++ "\n"

/-- The end of the input: what is not complete is compiled as it is. -/
def finish (settings : PromptSettings) (language : Language) (d : Disk) (s : PromptSession) :
    PromptSession :=
  let s :=
    if s.draft.isPending then { s with draft := {} }.submit settings language d s.draft.text else s
  s.display ("\n" ++ farewell language)

/-- Reads lines up to the last one, or up to one that leaves. -/
def lines (settings : PromptSettings) (language : Language) (d : Disk) (s : PromptSession) :
    List Text → PromptSession
  | [] => (s.display (s.prompt settings)).finish settings language d
  | line :: rest =>
    match (s.display (s.prompt settings)).line settings language d line with
    | .goOn s => s.lines settings language d rest
    | .leave s => s.display (farewell language)

/-- A session at its beginning. -/
def start (settings : PromptSettings) (language : Language) : PromptSession :=
  let banner := (Message.entry .replBanner [.text settings.version]).text language
  ({} : PromptSession).display (banner ++ "\nType :help for help\n")

/-- A session from its first line to its last. -/
def run (settings : PromptSettings) (language : Language) (d : Disk) (input : Text) :
    PromptSession :=
  (start settings language).lines settings language d (inputLines input)

end PromptSession

end Toolchain
