import Toolchain.Compiler.Statement
import Toolchain.Editor.Uri

/-!
# Documents of an editor

The documents that are open in an editor, as they stand while they are edited. Each is kept with its
lines and with what is wrong with it, which are found anew when its content changes. Lines and
characters count from zero, and characters are bytes.

## Main definitions

* `Document`: a document that an editor opens
* `OpenDocument`, `OpenDocument.analyze`: a document that is open, with what was found about it
* `DocumentChange`, `OpenDocument.change`: a change, and the document after some of them
* `Documents`: the documents that are open
-/

namespace Toolchain

/-- A place in a document. -/
structure DocumentPlace where
  line : Nat := 0
  character : Nat := 0
  deriving DecidableEq, Repr

/-- A part of a document. -/
structure DocumentRange where
  start : DocumentPlace := {}
  stop : DocumentPlace := {}
  deriving DecidableEq, Repr

/-- What is wrong with a part of a document. -/
structure DocumentDiagnostic where
  range : DocumentRange
  severity : Nat
  code : String
  message : Message
  deriving DecidableEq, Repr

/-- A change of a document: a text for a part of it. -/
structure DocumentChange where
  range : DocumentRange := {}
  /-- The length of the part, if it was given. -/
  length : Nat := 0
  text : Text
  deriving DecidableEq, Repr

/-- A document that an editor opens. -/
structure Document where
  uri : Text
  content : Text
  version : Int
  deriving DecidableEq, Repr

/-- A document that is open, with what was found about it. -/
structure OpenDocument extends Document where
  lines : List Text
  /-- What was wrong with the document when it was last looked at. -/
  diagnostics : List DocumentDiagnostic := []
  deriving DecidableEq, Repr

/-- A text with a line break for each way to end a line. -/
def normalizeLines : Text → Text
  | [] => []
  | b :: rest =>
    if b = '\r'.toUInt8 then
      match rest with
      | c :: after =>
        if c = '\n'.toUInt8 then c :: normalizeLines after
        else '\n'.toUInt8 :: normalizeLines (c :: after)
      | [] => ['\n'.toUInt8]
    else b :: normalizeLines rest

/-- The lines of a text, however they end. -/
def documentLines (content : Text) : List Text := (normalizeLines content).lines

namespace Severity

/-- The number that stands for a severity in an editor. -/
def editorNumber : Severity → Nat
  | warning => 2
  | note => 3
  | _ => 1

end Severity

namespace DocumentDiagnostic

/-- What marks the diagnostics of this tool. -/
def source : Text := Text.ofString "pyra"

/-- The diagnostic for an editor. One without a column is about its whole line. -/
def ofDiagnostic (lines : List Text) (d : Diagnostic) : DocumentDiagnostic :=
  let line := (d.line - 1).toNat
  let start := (d.column - 1).toNat
  let spanned := if d.endColumn > d.column then (d.endColumn - 1).toNat else start + 1
  let stop := if d.column = 0 then (lines[line]?.map List.length).getD spanned else spanned
  { range := ⟨⟨line, start⟩, ⟨line, stop⟩⟩, severity := d.severity.editorNumber
    code := d.code.name, message := d.message }

end DocumentDiagnostic

namespace Document

/-- The name of a document's file. -/
def filename (doc : Document) : Text := Uri.filename doc.uri

/-- What is wrong with a document, given its lines. -/
def diagnosticsWith (doc : Document) (lines : List Text) : List DocumentDiagnostic :=
  match (compileModule doc.filename doc.content).1 with
  | .ok _ => []
  | .error d => [.ofDiagnostic lines d]

end Document

namespace OpenDocument

/-- Looks at a document anew. -/
def analyze (doc : OpenDocument) : OpenDocument :=
  { doc with diagnostics := doc.diagnosticsWith doc.lines }

/-- A document once it is opened. -/
def ofDocument (doc : Document) : OpenDocument :=
  { toDocument := doc, lines := documentLines doc.content : OpenDocument }.analyze

/-- The place where a document ends. -/
def endPlace (doc : OpenDocument) : DocumentPlace :=
  ⟨doc.lines.length - 1, (doc.lines.getLastD []).length⟩

end OpenDocument

/-- A text with another one for a part of it. A place outside the text stands for the nearest one
in it. -/
def replaceRange (content : Text) (range : DocumentRange) (new : Text) : Text :=
  let lines := documentLines content
  let first := min range.start.line (lines.length - 1)
  let last := min range.stop.line (lines.length - 1)
  let head := (lines.getD first []).take range.start.character
  let tail := (lines.getD last []).drop range.stop.character
  Text.join "\n" (lines.take first ++ [head ++ new ++ tail] ++ lines.drop (last + 1))

namespace DocumentChange

/-- Whether a change is a text for the whole document. -/
def isFull (c : DocumentChange) : Bool := c.range = {} && c.length = 0

/-- The content after a change. -/
def apply (content : Text) (c : DocumentChange) : Text :=
  if c.isFull then c.text else replaceRange content c.range c.text

end DocumentChange

namespace OpenDocument

/-- A document after some changes, one after the other. -/
def change (doc : OpenDocument) (changes : List DocumentChange) (version : Int) : OpenDocument :=
  let content := changes.foldl DocumentChange.apply doc.content
  { doc with content, lines := documentLines content, version }.analyze

/-- A document once it is saved; an editor may say what its text is. -/
def save (doc : OpenDocument) (text : Text) : OpenDocument :=
  if text.isEmpty then doc.analyze
  else { doc with content := text, lines := documentLines text }.analyze

end OpenDocument

/-- The documents that are open. -/
structure Documents where
  opened : List OpenDocument := []
  deriving Repr

namespace Documents

/-- How many documents are open. -/
def count (ds : Documents) : Nat := ds.opened.length

/-- The document that a URI names. -/
def get? (ds : Documents) (uri : Text) : Option OpenDocument :=
  ds.opened.find? fun doc => doc.uri == uri

/-- Closes a document. -/
def close (ds : Documents) (uri : Text) : Documents :=
  ⟨ds.opened.filter fun doc => doc.uri != uri⟩

/-- Keeps a document in the place of the one with its name. -/
def keep (ds : Documents) (doc : OpenDocument) : Documents := ⟨doc :: (ds.close doc.uri).opened⟩

/-- Opens a document, in the place of the one with its name. -/
def put (ds : Documents) (doc : Document) : Documents := ds.keep (.ofDocument doc)

/-- Changes a document that is open. -/
def change (ds : Documents) (uri : Text) (changes : List DocumentChange) (version : Int) :
    Documents :=
  match ds.get? uri with
  | none => ds
  | some doc => ds.keep (doc.change changes version)

/-- Saves a document that is open. -/
def save (ds : Documents) (uri text : Text) : Documents :=
  match ds.get? uri with
  | none => ds
  | some doc => ds.keep (doc.save text)

end Documents

end Toolchain
