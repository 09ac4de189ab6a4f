import Toolchain.Editor.Capabilities

/-!
# Messages between an editor and a server

A message from an editor calls a method, with a number or a name if it waits for an answer; one with
such an identifier and no method is itself an answer. The parameters of a method have a shape.

## Main definitions

* `CallId`: what an answer is known by
* `Call`, `Incoming`, `Outgoing`: messages to the server and from it
* `Incoming.ofJson`: the message that a value is
* `Shape.initialization`, `Shape.opening`, `Shape.changing`, `Shape.saving`, `Shape.closing`,
  `Shape.formatting`: the shapes of parameters
-/

namespace Toolchain

/-- What an answer is known by. -/
inductive CallId where
  | number (n : Int)
  | name (t : Text)
  deriving DecidableEq, Repr

namespace CallId

/-- An identifier as it is sent. -/
def json : CallId → Json
  | number n => .ofInt n
  | name t => .string t

/-- The identifier that a value is: an integer of 32 bits or a text. The empty text counts as
zero. -/
def ofJson? (v : Json) : Option CallId :=
  match v with
  | .number literal => if v.fits .int32 then some (number (literal.toInt?.getD 0)) else none
  | .string t => some (if t.isEmpty then number 0 else name t)
  | _ => none

end CallId

/-- A call of a method. -/
structure Call where
  /-- What the answer is known by; none if no answer is wanted. -/
  id : Option CallId := none
  method : Text
  params : Option Json := none

/-- A message from an editor. -/
inductive Incoming where
  | call (c : Call)
  /-- An answer. -/
  | reply
  /-- What is no message. -/
  | malformed

namespace Incoming

/-- The message that a value is. -/
def ofJson (v : Json) : Incoming :=
  let id := v.valueAt "id"
  let method := v.textAt "method"
  if id.isMissing then
    if method.isEmpty then malformed else call { method, params := v.get? "params" }
  else
    match CallId.ofJson? id with
    | none => malformed
    | some id => if method.isEmpty then reply else call { id, method, params := v.get? "params" }

end Incoming

/-- Why a call fails. -/
inductive CallError where
  | invalidRequest
  | methodNotFound
  | invalidParams
  deriving DecidableEq, Repr

namespace CallError

/-- The number of an error. -/
def code : CallError → Int
  | invalidRequest => -32600
  | methodNotFound => -32601
  | invalidParams => -32602

end CallError

/-- A message from the server. -/
inductive Outgoing where
  | result (id : CallId) (value : Json)
  | failure (id : CallId) (error : CallError) (message : Text)
  | notification (method : Text) (params : Json)

namespace Outgoing

/-- A message as it is sent. -/
def json : Outgoing → Json
  | result id value => .object [("jsonrpc", .ofString "2.0"), ("id", id.json), ("result", value)]
  | failure id error message =>
    .object [("jsonrpc", .ofString "2.0"), ("id", id.json),
      ("error", .object [("code", .ofInt error.code), ("message", .string message)])]
  | notification method params =>
    .object [("jsonrpc", .ofString "2.0"), ("method", .string method), ("params", params)]

end Outgoing

namespace Shape

/-- What the progress of a call is known by. -/
def progressToken : Shape := label (-(twoPow 31 : Int)) (twoPow 31 - 1 : Int)

/-- A place in a document. -/
def place : Shape := record [("line", uint32), ("character", uint32)]

/-- A part of a document. -/
def range : Shape := record [("start", place), ("end", place)]

/-- The name of a document. -/
def documentName : Shape := record [("uri", text), ("version", int32)]

/-- The parameters of the first call. -/
def initialization : Shape :=
  record [("workDoneToken", progressToken), ("processId", int32),
    ("clientInfo", record [("name", text), ("version", text)]), ("locale", text),
    ("rootPath", text), ("rootUri", text), ("initializationOptions", any),
    ("capabilities", capabilities), ("trace", text),
    ("workspaceFolders", list (record [("uri", text), ("name", text)]))]

/-- The parameters for a document that is opened. -/
def opening : Shape :=
  record [("textDocument",
    record [("uri", text), ("languageId", text), ("version", int32), ("text", text)])]

/-- The parameters for a document that is changed. -/
def changing : Shape :=
  record [("textDocument", documentName),
    ("contentChanges", list (record [("range", range), ("rangeLength", uint32), ("text", text)]))]

/-- The parameters for a document that is saved. -/
def saving : Shape := record [("textDocument", record [("uri", text)]), ("text", text)]

/-- The parameters for a document that is closed. -/
def closing : Shape := record [("textDocument", record [("uri", text)])]

/-- The parameters for a document that is formatted. -/
def formatting : Shape :=
  record [("workDoneToken", progressToken), ("textDocument", record [("uri", text)]),
    ("options", record [("insertSpaces", bool), ("tabSize", uint32),
      ("trimTrailingWhitespace", bool), ("insertFinalNewline", bool),
      ("trimFinalNewlines", bool), ("key", table any)])]

end Shape

end Toolchain
