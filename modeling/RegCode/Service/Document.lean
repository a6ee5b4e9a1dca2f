import RegCode.Json
import RegCode.Workspace

/-! Open documents: their diagnostics and symbols, each on the whole of a line. -/
namespace RegCode.Service

open Json (Value textMember listMember)

/-- A document whose methods have been worked on. Lines are kept as their lengths in bytes. -/
structure Document where
  version : Int
  lines : List Nat
  faults : List Assembly.ReadFault
  work : Workspace
  deriving Inhabited

namespace Document

def lineLengths (text : String) : List Nat :=
  (Text.pieces '\n' (Text.replace "\r\n" "\n" text)).map (·.utf8ByteSize)

def read (c : Config) (v : Voice) (version : Int) (text : String) : Document :=
  let (classes, faults) := Assembly.readClasses text
  let image := classes.foldl Image.add Image.empty
  let start := Workspace.new image c v none
  let quiet := { start with reporter := { start.reporter with quiet := true } }
  { version
    lines := lineLengths text
    faults
    work := ((Workspace.workOnAll false quiet.classes).run quiet).2 }

def position (line character : Nat) : Value :=
  .obj [("line", .nat line), ("character", .nat character)]

def lineRange (d : Document) (line : Nat) : Value :=
  let index := line - 1
  .obj [("start", position index 0), ("end", position index (d.lines.getD index 0))]

def diagnosticOn (d : Document) (line : Nat) (code : String) (severity : Nat) (message : String) :
    Value :=
  .obj ([("range", d.lineRange line), ("severity", .nat severity)] ++ textMember "code" code ++
    [("source", .str "dexdec"), ("message", .str message)])

def severity : Level → Nat
  | .warning => 2 | .note => 3 | _ => 1

def lineOf (d : Document) (x : Diagnostic) : Nat :=
  match d.work.class? x.owner with
  | none => 1
  | some c => ((c.methods.find? (·.fullName == x.method)).map (·.line)).getD c.line

def ofDiagnostic (d : Document) (x : Diagnostic) : Value :=
  d.diagnosticOn (d.lineOf x) x.code (severity x.level) ("\n".intercalate (x.message :: x.hints))

def diagnostics (d : Document) : List Value :=
  let r := d.work.reporter
  d.faults.map (fun f => d.diagnosticOn f.line "" 1 f.cause.message) ++
    (r.errors ++ r.warnings).map d.ofDiagnostic

def symbol (d : Document) (name detail : String) (kind line : Nat) (children : List Value) : Value :=
  .obj ([("name", .str name)] ++ textMember "detail" detail ++ [("kind", .nat kind),
    ("range", d.lineRange line), ("selectionRange", d.lineRange line)] ++
    listMember "children" children)

def classSymbol (d : Document) : Nat → Class → Value
  | 0, c => d.symbol (Descriptor.className c.name) c.name 5 c.line []
  | fuel + 1, c =>
    let fields := c.fields.map fun f => d.symbol f.name (Descriptor.sourceName f.type) 8 c.line []
    let methods := c.methods.map fun m =>
      d.symbol m.name m.descriptor (if m.isConstructor then 9 else 6) m.line []
    let nested := (d.work.nested c).map (d.classSymbol fuel)
    d.symbol (Descriptor.className c.name) c.name (if c.isInterface then 11 else 5) c.line
      (fields ++ methods ++ nested)

def symbols (d : Document) : List Value :=
  d.work.topLevel.map (d.classSymbol (d.work.image.classes.length + 1))

end Document

end RegCode.Service
