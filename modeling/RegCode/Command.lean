import RegCode.Command.Host
import RegCode.Command.Options
import RegCode.Config.Reader
import RegCode.Workspace.Report

/-! The command: it loads files and shows their classes and methods. -/
namespace RegCode.Command

def version : String := "0.1.0"

def configFile : String := "dexdec.toml"

/-- What a command writes, and its code. -/
structure Outcome where
  code : Nat
  out : String := ""
  err : String := ""
  deriving DecidableEq, Repr, Inhabited

def usageText (v : Voice) : String := v.say .usage [] ++ "\n\n" ++ optionHelp

def complain (text : String) : Working Unit :=
  modify fun w => { w with reporter := { w.reporter with output := w.reporter.output ++ text ++ "\n" } }

def showMethod (o : Options) (c : Class) : Working (Nat × String) := do
  let v := (← get).voice
  match Workspace.findMethod c o.method with
  | (_, false) =>
    complain (v.say .methodNotFound [.text (c.name ++ "->" ++ o.method)])
    return (1, "")
  | (i, true) =>
    let code := if o.showCode then ((c.methods[i.toNat]?).map Method.disassembly).getD "" else ""
    match ← Workspace.renderMethod c i with
    | .ok text => return (0, code ++ text)
    | .error f =>
      complain ("Error: " ++ f.message)
      return (0, code)

/-- Does what the options ask for with the loaded classes. -/
def perform (o : Options) : Working (Nat × String) := do
  let w ← get
  let classes := w.select o.owner
  if o.owner ≠ "" ∧ classes.isEmpty then
    complain (w.voice.say .classNotFound [.text o.owner])
    return (1, "")
  else if o.method ≠ "" then
    let shown ← classes.mapM (showMethod o)
    return (if shown.any (·.1 != 0) then 1 else 0, String.join (shown.map Prod.snd))
  else if o.all then
    let _ ← Workspace.workOnAll false
      (if o.owner ≠ "" ∧ classes.length = 1 then classes else w.classes)
    return (0, String.join (← classes.mapM Workspace.render))
  else if o.owner ≠ "" then
    return (0, String.join (classes.map fun c => Browser.methodList w c fun _ => ""))
  else return (0, Browser.classList w)

variable {m : Type → Type} [Monad m]

def findConfig (h : Host m) : List String → m String
  | [] => return ""
  | dir :: rest => do
    let path := joinPath dir configFile
    match ← h.kind path with
    | .ok _ => return path
    | .error _ => findConfig h rest

/-- Settings of a run, or its outcome when there are none. -/
def loadConfig (h : Host m) (o : Options) : m (Except Outcome Config) := do
  let voice : Voice := {}
  let path ← if o.configPath ≠ "" then pure o.configPath
    else findConfig h (ancestors (← h.directory))
  let failed (code : Nat) (path text : String) : Except Outcome Config :=
    .error { code, err := voice.say .configFailed [.text path, .text text] ++ "\n" }
  let found ← if path = "" then pure (.ok {}) else do
    match ← h.read path with
    | .error f => pure (failed 1 path ("failed to read config file: " ++ f.message))
    | .ok text =>
      match Config.read text with
      | .error f => pure (failed 1 path f.message)
      | .ok c => pure (.ok c)
  match found with
  | .error e => return .error e
  | .ok c =>
    if o.format = "" then return .ok c
    else
      match { c with format := o.format }.validate with
      | .error f => return failed 2 "-format" f.message
      | .ok c => return .ok c

def writeConfig (h : Host m) (v : Voice) : m Outcome := do
  let path := joinPath (← h.directory) configFile
  match ← h.write path ({} : Config).fileText with
  | .ok () => return { code := 0, out := v.say .configWritten [.text path] ++ "\n" }
  | .error f =>
    let text := "failed to write config file: " ++ f.message
    return { code := 1, err := v.say .configFailed [.text path, .text text] ++ "\n" }

def loadFile (h : Host m) (img : Image) (path : String) : m (Image × List String) := do
  match ← h.read path with
  | .error f => return (img, ["failed to read " ++ path ++ ": " ++ f.message])
  | .ok text => return img.load text path

def maxDepth : Nat := 4096

/-- Loads the files of assembly text in a directory and in those inside it, in order of their
names. -/
def loadDirectory (h : Host m) : Nat → Image → String → m (Image × List String)
  | 0, img, _ => return (img, [])
  | fuel + 1, img, dir => do
    match ← h.list dir with
    | .error f => return (img, [f.message])
    | .ok names =>
      names.foldlM (fun (img, errors) name => do
        let path := joinPath dir name
        let (img, more) ← match ← h.kind path with
          | .error f => pure (img, [f.message])
          | .ok .directory => loadDirectory h fuel img path
          | .ok .file =>
            if Text.endsWith ".smali" path then loadFile h img path else pure (img, [])
        return (img, errors ++ more)) (img, [])

def loadPath (h : Host m) (img : Image) (path : String) : m (Image × List String) := do
  match ← h.kind path with
  | .error f => return (img, ["failed to stat " ++ path ++ ": " ++ f.message])
  | .ok .file => loadFile h img path
  | .ok .directory => loadDirectory h maxDepth img path

def loadPaths (h : Host m) (v : Voice) (paths : List String) : m (Image × String) :=
  paths.foldlM (fun (img, err) path => do
    let (img, errors) ← loadPath h img path
    let line := if errors.isEmpty then "" else
      v.say .loadFailed [.text path, .text ("; ".intercalate errors)] ++ "\n"
    return (img, err ++ line)) (Image.empty, "")

def openCache (h : Host m) (v : Voice) (dir : String) : m (Option Cache × String) := do
  if dir = "" then return (none, "")
  match ← h.openCache dir with
  | .ok c => return (some c, "")
  | .error f =>
    let text := "failed to create cache dir: " ++ f.message
    return (none, v.say .cacheDisabled [.text text] ++ "\n")

/-- Works with loaded classes. -/
def runLoaded (h : Host m) (o : Options) (c : Config) (v : Voice) (img : Image) : m Outcome := do
  let (cache, cacheError) ← openCache h v c.cacheDir
  let start := Workspace.new img c v cache
  let before ← h.memory
  let ((code, out), w) ← if o.interactive then do
      pure ((0, ""), ← h.browse { work := start, highlight := v.colours })
    else pure ((perform o).run start)
  match w.cache with
  | some cache => h.closeCache c.cacheDir cache
  | none => pure ()
  let used := (← h.memory).since before
  let r := w.reporter
  let stats := if o.stats then w.reportText { enabled := true } used else ""
  let summary := if r.errors.isEmpty && r.warnings.isEmpty then "" else r.summary v ++ "\n"
  return { code := if code = 0 && !r.errors.isEmpty then 1 else code
           out
           err := cacheError ++ r.output ++ stats ++ summary }

/-- Runs the command with its arguments. -/
def run (h : Host m) (args : List String) : m Outcome := do
  match parse {} args with
  | .error f =>
    return { code := 2, err := (f.message?.map (· ++ "\n")).getD "" ++ usageText {} }
  | .ok (o, paths) =>
    if o.version then return { code := 0, out := "dexdec " ++ version ++ "\n" }
    match ← loadConfig h o with
    | .error outcome => return outcome
    | .ok c =>
      let name := Language.choose o.language c.language (← h.speaksChinese)
      let v : Voice := { language := Language.ofName name }
      if o.initConfig then return ← writeConfig h v
      if paths.isEmpty then return { code := 2, err := usageText v }
      let (img, loadErrors) ← loadPaths h v paths
      if img.classes.isEmpty then
        return { code := 1, err := loadErrors ++ v.say .noClasses [] ++ "\n" }
      let outcome ← runLoaded h o c v img
      return { outcome with err := loadErrors ++ outcome.err }

end RegCode.Command
