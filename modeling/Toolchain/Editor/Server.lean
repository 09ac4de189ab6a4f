import Toolchain.Editor.Document
import Toolchain.Editor.Message
import Toolchain.Format.Basic

/-!
# A server for editors

The server keeps the documents that are open in an editor. Whenever one is opened, changed, saved or
closed, it tells what is wrong with it; and it lays a document out when it is asked to.

## Main definitions

* `Server`: the state of a server
* `Server.handle`: what a call does, and what is sent because of it
* `Server.receive`: what a message does
-/

namespace Toolchain

/-- How a server and an editor are connected. -/
inductive Connection where
  | live
  /-- The editor has left. -/
  | left
  /-- The editor has sent what is no message. -/
  | broken
  deriving DecidableEq, Repr

/-- The state of a server. -/
structure Server where
  version : Text := []
  documents : Documents := {}
  /-- Whether the editor has said that it is about to leave. -/
  isShutDown : Bool := false
  connection : Connection := .live

namespace DocumentPlace

/-- A place as it is sent. -/
def json (p : DocumentPlace) : Json :=
  .object [("line", .ofNat p.line), ("character", .ofNat p.character)]

/-- The place that parameters hold. -/
def ofJson (v : Json) : DocumentPlace :=
  ⟨(v.integerAt "line").toNat, (v.integerAt "character").toNat⟩

end DocumentPlace

namespace DocumentRange

/-- A part of a document as it is sent. -/
def json (r : DocumentRange) : Json := .object [("start", r.start.json), ("end", r.stop.json)]

/-- The part of a document that parameters hold. -/
def ofJson (v : Json) : DocumentRange := ⟨.ofJson (v.valueAt "start"), .ofJson (v.valueAt "end")⟩

end DocumentRange

namespace DocumentChange

/-- The change that parameters hold. -/
def ofJson (v : Json) : DocumentChange :=
  ⟨.ofJson (v.valueAt "range"), (v.integerAt "rangeLength").toNat, v.textAt "text"⟩

end DocumentChange

namespace DocumentDiagnostic

/-- A diagnostic as it is sent. -/
def json (language : Language) (d : DocumentDiagnostic) : Json :=
  .object [("range", d.range.json), ("severity", .ofNat d.severity), ("code", .ofString d.code),
    ("source", .string source), ("message", .string (d.message.text language))]

end DocumentDiagnostic

namespace Server

/-- The name of the server. -/
def name : Text := Text.ofString "pyrals"

/-- What the server can do: it is sent whole documents, also when they are saved, and lays them
out. -/
def capabilities : Json :=
  .object [("textDocumentSync", .object [("openClose", .bool true), ("change", .ofNat 1),
      ("save", .object [("includeText", .bool true)])]),
    ("documentFormattingProvider", .bool true)]

/-- The answer to the first call. -/
def introduction (s : Server) : Json :=
  .object [("capabilities", capabilities),
    ("serverInfo", .object [("name", .string name), ("version", .string s.version)])]

/-- The answer to a call; a message that wants none gets none. -/
def answer (m : Call) (value : Json) : List Outgoing :=
  match m.id with
  | some id => [.result id value]
  | none => []

/-- The answer to a call that fails. -/
def refuse (m : Call) (error : CallError) (message : Text) : List Outgoing :=
  match m.id with
  | some id => [.failure id error message]
  | none => []

/-- The message that tells what is wrong with a document. -/
def publication (language : Language) (uri : Text) (ds : List DocumentDiagnostic) : Outgoing :=
  .notification "textDocument/publishDiagnostics"
    (.object [("uri", .string uri),
      ("diagnostics", .array (ds.map (DocumentDiagnostic.json language)))])

/-- How an editor wants a document to be laid out. -/
def formatOptions (v : Json) : FormatOptions :=
  let defaults : FormatOptions := {}
  let size := v.integerAt "tabSize"
  { defaults with
    indentStyle := if v.boolAt "insertSpaces" then defaults.indentStyle else "tabs"
    indentSize := if size > 0 then min size 16 else defaults.indentSize }

/-- The edits that lay a document out: one for the whole document, or none if it cannot be laid out
or is laid out already. -/
def formatting (s : Server) (uri : Text) (options : FormatOptions) : List Json :=
  match s.documents.get? uri with
  | none => []
  | some doc =>
    match format options doc.filename doc.content with
    | .error _ => []
    | .ok text =>
      if text = doc.content then []
      else
        let range : DocumentRange := { stop := doc.endPlace }
        [.object [("range", range.json), ("newText", .string text)]]

/-- A method that parameters are given to. -/
inductive Method where
  | introduce
  | opened
  | changed
  | saved
  | closed
  | format
  deriving DecidableEq, Repr

namespace Method

/-- The shape of the parameters. -/
def shape : Method → Shape
  | introduce => .initialization
  | opened => .opening
  | changed => .changing
  | saved => .saving
  | closed => .closing
  | format => .formatting

/-- The methods that work with documents. -/
def ofName? (name : Text) : Option Method :=
  match name.toStringLossy with
  | "textDocument/didOpen" => some opened
  | "textDocument/didChange" => some changed
  | "textDocument/didSave" => some saved
  | "textDocument/didClose" => some closed
  | "textDocument/formatting" => some format
  | _ => none

end Method

/-- What is sent for a document that is open, and the answer. -/
def publish (language : Language) (s : Server) (m : Call) (uri : Text) : List Outgoing :=
  match s.documents.get? uri with
  | some doc => publication language uri doc.diagnostics :: answer m .null
  | none => answer m .null

/-- What a method does, given its parameters. -/
def perform (language : Language) (s : Server) (m : Call) (v : Json) :
    Method → List Outgoing × Server
  | .introduce => (answer m s.introduction, s)
  | .opened =>
    let item := v.valueAt "textDocument"
    let doc : Document := ⟨item.textAt "uri", item.textAt "text", item.integerAt "version"⟩
    let s := { s with documents := s.documents.put doc }
    (s.publish language m doc.uri, s)
  | .changed =>
    let item := v.valueAt "textDocument"
    let uri := item.textAt "uri"
    let changes := (v.itemsAt "contentChanges").map DocumentChange.ofJson
    let s := { s with documents := s.documents.change uri changes (item.integerAt "version") }
    (s.publish language m uri, s)
  | .saved =>
    let uri := (v.valueAt "textDocument").textAt "uri"
    let s := { s with documents := s.documents.save uri (v.textAt "text") }
    (s.publish language m uri, s)
  | .closed =>
    let uri := (v.valueAt "textDocument").textAt "uri"
    (publication language uri [] :: answer m .null,
      { s with documents := s.documents.close uri })
  | .format =>
    let uri := (v.valueAt "textDocument").textAt "uri"
    (answer m (.array (s.formatting uri (formatOptions (v.valueAt "options")))), s)

/-- Calls a method, if its parameters have the right shape. -/
def call (language : Language) (s : Server) (m : Call) (method : Method) :
    List Outgoing × Server :=
  match m.params with
  | none | some .null => (refuse m .invalidParams ("invalid " ++ m.method ++ " params"), s)
  | some v =>
    match method.shape.read? v with
    | some v => s.perform language m v method
    | none => (refuse m .invalidParams ("invalid " ++ m.method ++ " params"), s)

/-- What a call does, and what is sent because of it. -/
def handle (language : Language) (s : Server) (m : Call) : List Outgoing × Server :=
  match m.method.toStringLossy with
  | "initialize" => s.call language m .introduce
  | "initialized" => (answer m .null, s)
  | "shutdown" => (answer m .null, { s with isShutDown := true })
  | "exit" => (answer m .null, { s with connection := .left })
  | _ =>
    if s.isShutDown then (refuse m .invalidRequest "server is shutting down", s)
    else
      match Method.ofName? m.method with
      | some method => s.call language m method
      | none => (refuse m .methodNotFound "JSON-RPC method not found", s)

/-- What a message does, and what is sent because of it: nothing once the connection has ended. The
server calls no method of the editor, so it waits for no answer. -/
def receive (language : Language) (s : Server) (m : Incoming) : List Outgoing × Server :=
  if s.connection = .live then
    match m with
    | .call m => s.handle language m
    | .reply => ([], s)
    | .malformed => ([], { s with connection := .broken })
  else ([], s)

end Server

end Toolchain
