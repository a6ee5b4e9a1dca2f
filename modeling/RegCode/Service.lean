import RegCode.Service.Document
import RegCode.Service.Params

/-! A language service: it answers requests about the documents that a client has opened. -/
namespace RegCode

open Json (Value)

structure Service where
  config : Config := {}
  voice : Voice := {}
  documents : Table String Service.Document := .empty
  stopped : Bool := false
  deriving Inhabited

namespace Service

def version : String := "0.1.0"

def result (id : Option Value) (v : Value) : Value :=
  .obj [("jsonrpc", .str "2.0"), ("id", id.getD .null), ("result", v)]

/-- Why a request has no result. -/
inductive Refusal where
  | unreadable
  | params (text : String)
  | unknownMethod (name : String)
  deriving DecidableEq, Repr

namespace Refusal

def code : Refusal → Int
  | unreadable => -32700 | params _ => -32602 | unknownMethod _ => -32601

def message : Refusal → String
  | unreadable => "Parse error"
  | params text => text
  | unknownMethod name => "Method not found: " ++ name

end Refusal

def refusal (id : Option Value) (r : Refusal) : Value :=
  .obj [("jsonrpc", .str "2.0"), ("id", id.getD .null),
    ("error", .obj [("code", .int r.code), ("message", .str r.message)])]

def published (uri : String) (version : Int) (diagnostics : List Value) : Value :=
  let version := version.emod 4294967296
  .obj [("jsonrpc", .str "2.0"), ("method", .str "textDocument/publishDiagnostics"),
    ("params", .obj ([("uri", .str uri)] ++
      (if version = 0 then [] else [("version", .int version)]) ++
      [("diagnostics", .arr diagnostics)]))]

def capabilities : Value :=
  .obj [("capabilities", .obj [
      ("textDocumentSync", .obj [("openClose", .bool true), ("change", .nat 1),
        ("save", .obj [("includeText", .bool true)])]),
      ("documentSymbolProvider", .bool true)]),
    ("serverInfo", .obj [("name", .str "dexdec-ls"), ("version", .str version)])]

def publish (s : Service) (uri : String) : List Value :=
  match s.documents.get? uri with
  | some d => [published uri d.version d.diagnostics]
  | none => []

def opened (s : Service) (t : TextItem) : Service :=
  { s with documents := s.documents.insert t.uri (.read s.config s.voice t.version t.text) }

def updated (s : Service) (t : TextItem) : Service :=
  match s.documents.get? t.uri with
  | none => s
  | some d => s.opened { t with version := if t.version < 0 then d.version + 1 else t.version }

def render (work : Workspace) (x : Selection) : Except Refusal String × Workspace :=
  let classes := work.select x.owner
  let one (c : Class) : ExceptT Refusal Working String := do
    if x.method = "" then return ← Workspace.render c
    match Workspace.findMethod c x.method with
    | (_, false) => throw (.params ("method not found: " ++ c.name ++ "->" ++ x.method))
    | (i, true) =>
      match ← Workspace.renderMethod c i with
      | .ok text => return text
      | .error f => throw (.params f.message)
  if classes.isEmpty then (.error (.params ("class not found: " ++ x.owner)), work)
  else (ExceptT.run (do return String.join (← classes.mapM one))).run work

def decompile (s : Service) (id : Option Value) (x : Selection) : Value × Service :=
  match s.documents.get? x.uri with
  | none => (refusal id (.params ("document not open: " ++ x.uri)), s)
  | some d =>
    let (answer, work) := render d.work x
    let s := { s with documents := s.documents.insert x.uri { d with work } }
    match answer with
    | .ok text => (result id (.obj [("text", .str text)]), s)
    | .error r => (refusal id r, s)

def symbols (s : Service) (uri : String) : Value :=
  .arr (((s.documents.get? uri).map (·.symbols)).getD [])

/-- Answers a request. A notification that cannot be read is passed over. -/
def handle (s : Service) (r : Request) : List Value × Service :=
  match r.method with
  | "initialize" =>
    match checkClient r.params with
    | some () => ([result r.id capabilities], s)
    | none => ([refusal r.id .unreadable], s)
  | "initialized" | "$/cancelRequest" => ([], s)
  | "shutdown" => ([result r.id .null], s)
  | "exit" => ([], { s with stopped := true })
  | "textDocument/didOpen" =>
    match readOpened r.params with
    | none => ([], s)
    | some t =>
      let s := s.opened t
      (s.publish t.uri, s)
  | "textDocument/didChange" =>
    match readChanged r.params with
    | some (some t) =>
      let s := s.updated t
      (s.publish t.uri, s)
    | _ => ([], s)
  | "textDocument/didClose" =>
    match readClosed r.params with
    | none => ([], s)
    | some uri => ([published uri 0 []], { s with documents := s.documents.erase uri })
  | "textDocument/didSave" =>
    match readSaved r.params with
    | none => ([], s)
    | some (uri, text) =>
      let s := if text = "" then s else s.updated ⟨uri, -1, text⟩
      (s.publish uri, s)
  | "textDocument/documentSymbol" =>
    match readSymbols r.params with
    | none => ([refusal r.id .unreadable], s)
    | some uri => ([result r.id (s.symbols uri)], s)
  | "dexdec/decompile" =>
    match readSelection r.params with
    | none => ([refusal r.id .unreadable], s)
    | some x =>
      let (answer, s) := s.decompile r.id x
      ([answer], s)
  | name =>
    match r.id with
    | some id => ([refusal id (.unknownMethod name)], s)
    | none => ([], s)

end Service

end RegCode
