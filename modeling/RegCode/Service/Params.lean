import RegCode.Json.Reader
import RegCode.Json.Shape

/-! Requests and their parameters. A member that is missing or null counts as empty; one of the wrong
shape spoils the whole request. -/

/-! ### What a client says about itself when it connects -/

namespace RegCode.Service.Client

open Json (Shape signed32 unsigned32)
open Json.Shape (text flag real token any list record)

def flags (names : List String) : List (String × Shape) := names.map (·, flag)

def texts (names : List String) : List (String × Shape) := names.map (·, text)

def valueSet (item : Shape) : Shape := record [("valueSet", list item)]

def dynamic (more : List (String × Shape)) : Shape := record (("dynamicRegistration", flag) :: more)

def workspaceEdit : Shape :=
  record [("documentChanges", flag), ("failureHandling", text), ("resourceOperations", list text),
    ("normalizesLineEndings", flag), ("changeAnnotationSupport", record [("groupsOnLabel", flag)])]

def workspace : Shape :=
  record [("applyEdit", flag), ("workspaceEdit", workspaceEdit),
    ("didChangeConfiguration", dynamic []), ("didChangeWatchedFiles", dynamic []),
    ("symbol", dynamic [("symbolKind", valueSet real), ("tagSupport", valueSet real)]),
    ("executeCommand", dynamic []), ("workspaceFolders", flag), ("configuration", flag),
    ("semanticTokens", record [("refreshSupport", flag)]),
    ("codeLens", record [("refreshSupport", flag)]),
    ("fileOperations", dynamic (flags ["didCreate", "willCreate", "didRename", "willRename",
      "didDelete", "willDelete"]))]

def completionItem : Shape :=
  record (flags ["snippetSupport", "commitCharactersSupport", "deprecatedSupport",
      "preselectSupport", "insertReplaceSupport"] ++
    [("documentationFormat", list text), ("tagSupport", valueSet real),
     ("resolveSupport", record [("properties", list text)]),
     ("insertTextModeSupport", valueSet real)])

def completion : Shape :=
  dynamic [("completionItem", completionItem), ("completionItemKind", valueSet real),
    ("contextSupport", flag)]

def signatureHelp : Shape :=
  dynamic [("signatureInformation", record [("documentationFormat", list text),
      ("parameterInformation", record [("labelOffsetSupport", flag)]),
      ("activeParameterSupport", flag)]),
    ("contextSupport", flag)]

def documentSymbol : Shape :=
  dynamic [("symbolKind", valueSet real), ("hierarchicalDocumentSymbolSupport", flag),
    ("tagSupport", valueSet real), ("labelSupport", flag)]

def codeAction : Shape :=
  dynamic ([("codeActionLiteralSupport", record [("codeActionKind", valueSet text)]),
      ("resolveSupport", record [("properties", list text)])] ++
    flags ["isPreferredSupport", "disabledSupport", "dataSupport", "honorsChangeAnnotations"])

def publishDiagnostics : Shape :=
  record (("tagSupport", valueSet real) ::
    flags ["relatedInformation", "versionSupport", "codeDescriptionSupport", "dataSupport"])

def rename : Shape :=
  dynamic [("prepareSupport", flag), ("prepareSupportDefaultBehavior", real),
    ("honorsChangeAnnotations", flag)]

def semanticTokens : Shape :=
  dynamic [("requests", record [("range", flag), ("full", any)]), ("tokenTypes", list text),
    ("tokenModifiers", list text), ("formats", list text), ("overlappingTokenSupport", flag),
    ("multilineTokenSupport", flag)]

def textDocument : Shape :=
  record ([("synchronization", dynamic (flags ["willSave", "willSaveWaitUntil", "didSave"])),
      ("completion", completion), ("hover", dynamic [("contentFormat", list text)]),
      ("signatureHelp", signatureHelp), ("documentSymbol", documentSymbol),
      ("codeAction", codeAction), ("documentLink", dynamic [("tooltipSupport", flag)]),
      ("publishDiagnostics", publishDiagnostics), ("rename", rename),
      ("foldingRange", dynamic [("rangeLimit", unsigned32), ("lineFoldingOnly", flag)]),
      ("semanticTokens", semanticTokens)] ++
    ["declaration", "definition", "typeDefinition", "implementation"].map
      (·, dynamic [("linkSupport", flag)]) ++
    ["references", "documentHighlight", "codeLens", "colorProvider", "formatting",
      "rangeFormatting", "onTypeFormatting", "selectionRange", "callHierarchy",
      "linkedEditingRange", "moniker"].map (·, dynamic []))

def window : Shape :=
  record [("workDoneProgress", flag),
    ("showMessage", record [("messageActionItem", record [("additionalPropertiesSupport", flag)])]),
    ("showDocument", record [("support", flag)])]

def general : Shape :=
  record [("regularExpressions", record (texts ["engine", "version"])),
    ("markdown", record (texts ["parser", "version"]))]

def capabilities : Shape :=
  record [("workspace", workspace), ("textDocument", textDocument), ("window", window),
    ("general", general), ("experimental", any)]

def shape : Shape :=
  record ([("workDoneToken", token), ("processId", signed32),
      ("clientInfo", record (texts ["name", "version"])), ("initializationOptions", any),
      ("capabilities", capabilities), ("workspaceFolders", list (record (texts ["uri", "name"])))] ++
    texts ["locale", "rootPath", "rootUri", "trace"])

end RegCode.Service.Client

/-! ### Requests -/

namespace RegCode.Service

open Json (Value Shape signed32 unsigned32)
open Json.Shape (text token list record)

/-- A message of the client. -/
structure Request where
  id : Option Value
  method : String
  params : Option Value
  deriving Inhabited

def Request.shape : Shape := record [("jsonrpc", text), ("method", text)]

def fitting? (s : Shape) (v : Option Value) : Option Value := v.filter (·.fits s)

def Request.read (text : String) : Option Request := do
  let v ← fitting? shape (Json.parse? text)
  return { id := v.last? "id", method := v.textAt ["method"], params := v.last? "params" }

def about (document more : List (String × Shape)) : Shape :=
  record (("textDocument", record (("uri", text) :: document)) :: more)

def uriOf (v : Value) : String := v.textAt ["textDocument", "uri"]

/-- A document with its full text. -/
structure TextItem where
  uri : String
  version : Int
  text : String
  deriving DecidableEq, Repr, Inhabited

def versionOf (v : Value) : Int := v.wholeAt ["textDocument", "version"]

def readOpened (params : Option Value) : Option TextItem := do
  let v ← fitting? (about [("languageId", text), ("version", signed32), ("text", text)] []) params
  return ⟨uriOf v, versionOf v, v.textAt ["textDocument", "text"]⟩

def position : Shape := record [("line", unsigned32), ("character", unsigned32)]

def change : Shape :=
  record [("range", record [("start", position), ("end", position)]), ("rangeLength", unsigned32),
    ("text", text)]

def changeTexts : List String → List Value → List String
  | _, [] => []
  | kept, v :: vs => (v.textAt? ["text"]).getD (kept.headD "") :: changeTexts kept.tail vs

def mergeChanges : List String × Nat → List Value → List String × Nat
  | kept, [] => kept
  | (kept, _), .arr vs :: rest =>
    mergeChanges (changeTexts kept vs ++ kept.drop vs.length, vs.length) rest
  | _, _ :: rest => mergeChanges ([], 0) rest

def readChanged (params : Option Value) : Option (Option TextItem) := do
  let shape := about [("version", signed32)] [("contentChanges", list change)]
  let v ← fitting? shape params
  let (texts, count) := mergeChanges ([], 0) (v.along ["contentChanges"])
  return (texts.take count).getLast?.map fun text => ⟨uriOf v, versionOf v, text⟩

def readSaved (params : Option Value) : Option (String × String) := do
  let v ← fitting? (about [] [("text", text)]) params
  return (uriOf v, v.textAt ["text"])

def readClosed (params : Option Value) : Option String :=
  (fitting? (about [] []) params).map uriOf

def readSymbols (params : Option Value) : Option String :=
  (fitting? (about [] [("workDoneToken", token), ("partialResultToken", token)]) params).map uriOf

/-- What to show of a document: a class or a part of its name, and a method. -/
structure Selection where
  uri : String
  owner : String
  method : String
  deriving DecidableEq, Repr, Inhabited

def readSelection (params : Option Value) : Option Selection := do
  let v ← fitting? (about [] [("class", text), ("method", text)]) params
  return ⟨uriOf v, v.textAt ["class"], v.textAt ["method"]⟩

def checkClient (params : Option Value) : Option Unit :=
  (fitting? Client.shape params).map fun _ => ()

end RegCode.Service
