import Toolchain.Json.Shape

/-!
# What an editor can do

In its first call an editor says what it can do. The server makes no use of it, but takes no call in
which it is said in the wrong way.

## Main definitions

* `Shape.capabilities`: the shape of what an editor says
-/

namespace Toolchain.Shape

/-- Whether an editor can do several things. -/
def switches (names : List String) : List (String × Shape) := names.map fun name => (name, bool)

/-- Something that may be registered while the editor runs. -/
def registered (fields : List (String × Shape)) : Shape :=
  record (("dynamicRegistration", bool) :: fields)

/-- The kinds of something that an editor knows, by their numbers. -/
def kinds : Shape := record [("valueSet", list number)]

/-- The properties that an editor can ask for later. -/
def resolution : Shape := record [("properties", list text)]

/-- How an editor works with the files of a project. -/
def workspaceCapabilities : Shape :=
  record [("applyEdit", bool),
    ("workspaceEdit",
      record [("documentChanges", bool), ("failureHandling", text),
        ("resourceOperations", list text), ("normalizesLineEndings", bool),
        ("changeAnnotationSupport", record [("groupsOnLabel", bool)])]),
    ("didChangeConfiguration", registered []),
    ("didChangeWatchedFiles", registered []),
    ("symbol", registered [("symbolKind", kinds), ("tagSupport", kinds)]),
    ("executeCommand", registered []),
    ("workspaceFolders", bool),
    ("configuration", bool),
    ("semanticTokens", record [("refreshSupport", bool)]),
    ("codeLens", record [("refreshSupport", bool)]),
    ("fileOperations",
      registered (switches ["didCreate", "willCreate", "didRename", "willRename", "didDelete",
        "willDelete"]))]

/-- How an editor completes what is typed. -/
def completionCapabilities : Shape :=
  registered [
    ("completionItem",
      record [("snippetSupport", bool), ("commitCharactersSupport", bool),
        ("documentationFormat", list text), ("deprecatedSupport", bool), ("preselectSupport", bool),
        ("tagSupport", kinds), ("insertReplaceSupport", bool), ("resolveSupport", resolution),
        ("insertTextModeSupport", kinds)]),
    ("completionItemKind", kinds),
    ("contextSupport", bool)]

/-- How an editor shows the parameters of a call. -/
def signatureCapabilities : Shape :=
  registered [
    ("signatureInformation",
      record [("documentationFormat", list text),
        ("parameterInformation", record [("labelOffsetSupport", bool)]),
        ("activeParameterSupport", bool)]),
    ("contextSupport", bool)]

/-- How an editor shows the symbols of a document. -/
def symbolCapabilities : Shape :=
  registered [("symbolKind", kinds), ("hierarchicalDocumentSymbolSupport", bool),
    ("tagSupport", kinds), ("labelSupport", bool)]

/-- How an editor offers changes to the code. -/
def actionCapabilities : Shape :=
  registered [
    ("codeActionLiteralSupport",
      record [("codeActionKind", record [("valueSet", list text)])]),
    ("isPreferredSupport", bool), ("disabledSupport", bool), ("dataSupport", bool),
    ("resolveSupport", resolution), ("honorsChangeAnnotations", bool)]

/-- How an editor colours what is written by its meaning. -/
def semanticCapabilities : Shape :=
  registered [("requests", record [("range", bool), ("full", any)]), ("tokenTypes", list text),
    ("tokenModifiers", list text), ("formats", list text), ("overlappingTokenSupport", bool),
    ("multilineTokenSupport", bool)]

/-- How an editor works with a document. -/
def documentCapabilities : Shape :=
  record ([
    ("synchronization", registered (switches ["willSave", "willSaveWaitUntil", "didSave"])),
    ("completion", completionCapabilities),
    ("hover", registered [("contentFormat", list text)]),
    ("signatureHelp", signatureCapabilities),
    ("documentSymbol", symbolCapabilities),
    ("codeAction", actionCapabilities),
    ("documentLink", registered [("tooltipSupport", bool)]),
    ("publishDiagnostics",
      record [("relatedInformation", bool), ("tagSupport", kinds), ("versionSupport", bool),
        ("codeDescriptionSupport", bool), ("dataSupport", bool)]),
    ("rename",
      registered [("prepareSupport", bool), ("prepareSupportDefaultBehavior", number),
        ("honorsChangeAnnotations", bool)]),
    ("foldingRange", registered [("rangeLimit", uint32), ("lineFoldingOnly", bool)]),
    ("semanticTokens", semanticCapabilities)] ++
  ["declaration", "definition", "typeDefinition", "implementation"].map (fun name =>
    (name, registered [("linkSupport", bool)])) ++
  ["references", "documentHighlight", "codeLens", "colorProvider", "formatting", "rangeFormatting",
    "onTypeFormatting", "selectionRange", "callHierarchy", "linkedEditingRange", "moniker"].map
      fun name => (name, registered []))

/-- What the window of an editor shows. -/
def windowCapabilities : Shape :=
  record [("workDoneProgress", bool),
    ("showMessage",
      record [("messageActionItem", record [("additionalPropertiesSupport", bool)])]),
    ("showDocument", record [("support", bool)])]

/-- What an editor says of the languages it reads. -/
def generalCapabilities : Shape :=
  record [("regularExpressions", record [("engine", text), ("version", text)]),
    ("markdown", record [("parser", text), ("version", text)])]

/-- What an editor can do. -/
def capabilities : Shape :=
  record [("workspace", workspaceCapabilities), ("textDocument", documentCapabilities),
    ("window", windowCapabilities), ("general", generalCapabilities), ("experimental", any)]

end Toolchain.Shape
