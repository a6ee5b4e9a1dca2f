import RegCode.Cache
import RegCode.Decompile
import RegCode.Diagnostic
import RegCode.Image
import RegCode.Layout

/-! Loaded classes whose methods are worked on once each, on demand. -/
namespace RegCode

/-- A method that failed. -/
structure MethodError where
  method : String
  code : Code
  cause : String
  deriving DecidableEq, Repr, Inhabited

def MethodError.text (e : MethodError) : String :=
  e.method ++ ": [" ++ e.code.name ++ "] " ++ e.cause

/-- What became of a method. There is no tree without code, after a failure, and when the text was
stored. -/
structure MethodResult where
  source : MethodSource
  tree : Option (Tree String) := none
  gotos : Int := 0
  loops : Int := 0
  cached : Bool := false
  error : Option MethodError := none
  deriving Repr, Inhabited

structure Stats where
  methods : Int := 0
  failed : Int := 0
  gotos : Int := 0
  loops : Int := 0
  cacheHits : Int := 0
  deriving DecidableEq, Repr, Inhabited

def Stats.text (s : Stats) (v : Voice) : String :=
  v.say .stats [.num s.methods, .num s.failed, .num s.gotos, .num s.cacheHits]

/-- A position that no method has. -/
structure IndexFault where
  index : Int
  count : Nat
  deriving DecidableEq, Repr

def IndexFault.message (f : IndexFault) : String :=
  "method index " ++ Text.intText f.index ++ " out of range [0, " ++ Text.natText f.count ++ ")"

/-- Classes at work and what became of their methods. References lead to all `known` classes, which
may be more than those at work. -/
structure Workspace where
  image : Image := .empty
  known : Image := image
  config : Config := {}
  voice : Voice := {}
  reporter : Reporter := .new {}
  cache : Option Cache := none
  stats : Stats := {}
  results : Table (String × Nat) MethodResult := .empty
  dumps : List StageDump := []
  deriving Inhabited

abbrev Working := StateM Workspace

namespace Workspace

def new (img : Image) (c : Config) (v : Voice) (cache : Option Cache) : Workspace :=
  { image := img
    config := c
    voice := v
    reporter := .new v
    cache }

def renew (w : Workspace) (img : Image) (c : Config) : Workspace :=
  { new img c w.voice w.cache with reporter := { Reporter.new w.voice with output := w.reporter.output } }

def classes (w : Workspace) : List Class := Image.sortByName w.image.classes

def class? (w : Workspace) (name : String) : Option Class := w.image.get? name

def isNested (w : Workspace) (c : Class) : Bool :=
  c.outerName != c.name && (w.class? c.outerName).isSome

def nested (w : Workspace) (c : Class) : List Class :=
  w.classes.filter fun d => d.outerName == c.name && d.name != c.name

def topLevel (w : Workspace) : List Class := w.classes.filter fun c => !w.isNested c

def select (w : Workspace) (name : String) : List Class :=
  if name = "" then w.topLevel
  else
    match w.class? name with
    | some c => [c]
    | none => w.image.find name

def modifyReporter (f : Voice → Reporter → Reporter) : Working Unit :=
  modify fun w => { w with reporter := f w.voice w.reporter }

def warn (m : Method) (code : Code) (clues : Clues) (args : List Arg) : Working Unit :=
  modifyReporter fun v r => r.warn v code.name m.owner m.fullName clues args

def countStats (f : Stats → Stats) : Working Unit := modify fun w => { w with stats := f w.stats }

def inspect (m : Method) : Working Unit := do
  m.overlaps.forM fun offset => warn m .overlappingTry {} [.num offset]
  let w ← get
  (References.dead w.known m).forM fun r =>
    warn m .unresolved { name := r.name, candidates := r.candidates } [.text r.text]

def cacheKey? (w : Workspace) (m : Method) : Option Text.Bytes :=
  if w.cache.isSome && m.hasCode && w.config.format == "java" then
    some (Cache.key m w.config.fingerprint)
  else none

def lookUp (key : Text.Bytes) : Working (Option CacheEntry) := do
  let w ← get
  match w.cache with
  | none => return none
  | some c =>
    let (entry, c) := c.get key
    set { w with cache := some c }
    return entry

def store (key : Text.Bytes) (e : CacheEntry) : Working Unit :=
  modify fun w => { w with cache := w.cache.map fun c => c.put key e }

def countResult (r : MethodResult) : Working Unit :=
  countStats fun s => { s with gotos := s.gotos + r.gotos, loops := s.loops + r.loops }

def ofEntry (m : Method) (e : CacheEntry) : Working MethodResult := do
  let r : MethodResult :=
    { source := { method := m, body := .stored e.source }
      gotos := e.gotos
      loops := e.loops
      cached := true }
  countStats fun s => { s with cacheHits := s.cacheHits + 1 }
  countResult r
  if e.gotos > 0 then warn m .residualGoto {} [.num e.gotos]
  return r

def ofFault (m : Method) (f : DecompileFault) : Working MethodResult := do
  let e : MethodError := ⟨m.fullName, f.code, f.message⟩
  countStats fun s => { s with failed := s.failed + 1 }
  modifyReporter fun v r => r.methodError v e.code.name m.owner e.method e.cause
  return { source := { method := m, body := .failed e.text }, error := some e }

def bodyOf : Tree String → List (Tree String)
  | .block _ body => body
  | t => [t]

def ofDecompiled (m : Method) (d : Decompiled) : Working MethodResult := do
  let body := (d.tree.map fun r => bodyOf r.root).getD []
  let r : MethodResult :=
    { source := { method := m, vars := d.graph.vars, params := d.graph.params, body := .code body }
      tree := d.tree.map (·.root)
      gotos := (d.tree.map (·.gotos)).getD 0
      loops := (d.tree.map (·.loops)).getD 0 }
  countResult r
  if r.gotos > 0 then
    warn m .residualGoto { irreducible := some ((d.tree.map (·.irreducible)).getD 0) } [.num r.gotos]
  return r

/-- Works on a method. A failure concerns that method alone. -/
def workOn (m : Method) : Working MethodResult := do
  countStats fun s => { s with methods := s.methods + 1 }
  inspect m
  let key := (← get).cacheKey? m
  let found ← match key with
    | some k => lookUp k
    | none => pure none
  match found with
  | some e => ofEntry m e
  | none =>
    let c := (← get).config
    let (result, dumps) := m.decompile c
    modify fun w => { w with dumps := w.dumps ++ dumps }
    match result with
    | .error f => ofFault m f
    | .ok d =>
      let r ← ofDecompiled m d
      match key with
      | some k => store k ⟨Layout.methodText c.layout r.source, r.gotos, r.loops⟩
      | none => pure ()
      return r

def resultOf (owner : String) (index : Nat) (m : Method) : Working MethodResult := do
  match (← get).results.get? (owner, index) with
  | some r => return r
  | none =>
    let r ← workOn m
    modify fun w => { w with results := w.results.insert (owner, index) r }
    return r

def result (c : Class) (index : Int) : Working (Except IndexFault MethodResult) := do
  match if index < 0 then none else c.methods[index.toNat]? with
  | some m => return .ok (← resultOf c.name index.toNat m)
  | none => return .error ⟨index, c.methods.length⟩

def isDone (w : Workspace) (c : Class) (index : Int) : Bool :=
  0 ≤ index && (w.results.get? (c.name, index.toNat)).isSome

def resultsOf (c : Class) : Working (List MethodResult) :=
  c.methods.zipIdx.mapM fun (m, i) => resultOf c.name i m

def slots (cs : List Class) : List (String × Nat × Method) :=
  cs.flatMap fun c => c.methods.zipIdx.map fun (m, i) => (c.name, i, m)

def takenUp {α : Type} (workers : Int) (xs : List α) : List α :=
  if workers = 1 then xs else xs.getLast?.toList ++ xs.dropLast

def workOnAll (cancelled : Bool) (cs : List Class) : Working (List String) := do
  if cancelled then
    return if cs.all (·.methods.isEmpty) then [] else ["context canceled"]
  else
    let order := takenUp (← get).config.workers (slots cs)
    let results ← order.mapM fun (owner, i, m) => resultOf owner i m
    return results.filterMap fun r => r.error.map (·.text)

def findMethod (c : Class) (selector : String) : Int × Bool :=
  match (Text.readSigned selector).ok? with
  | some i => (i, 0 ≤ i && i < c.methods.length)
  | none =>
    match c.methods.findIdx? fun m => m.name == selector || m.name ++ m.descriptor == selector with
    | some i => (i, true)
    | none => (-1, false)

open Json (Value textMember listMember)

def sourceOf : Nat → Class → Working ClassSource
  | 0, c => return .mk c [] []
  | fuel + 1, c => do
    let methods ← resultsOf c
    let nested ← ((← get).nested c).mapM (sourceOf fuel)
    return .mk c (methods.map (·.source)) nested

def source (c : Class) : Working ClassSource := do
  sourceOf ((← get).image.classes.length + 1) c

def methodDocument (r : MethodResult) : Value :=
  let m := r.source.method
  .obj ([("name", .str m.name), ("descriptor", .str m.descriptor), ("gotos", .int r.gotos),
    ("loops", .int r.loops)] ++ textMember "error" ((r.error.map (·.text)).getD "") ++
    (r.tree.map fun t => ("body", t.toJson r.source.vars)).toList)

def documentOf : Nat → Class → Working Value
  | 0, c => return .obj [("class", .str c.name)]
  | fuel + 1, c => do
    let methods ← resultsOf c
    let nested ← ((← get).nested c).mapM (documentOf fuel)
    return .obj ([("class", .str c.name)] ++ textMember "super" c.super ++
      [("methods", .arr (methods.map methodDocument))] ++ listMember "nested" nested)

def documentText (v : Value) : String := v.pretty "  " ++ "\n"

def render (c : Class) : Working String := do
  let w ← get
  if w.config.isJson then return documentText (← documentOf (w.image.classes.length + 1) c)
  else return Layout.classText w.config.layout (← source c)

def renderMethod (c : Class) (index : Int) : Working (Except IndexFault String) := do
  match ← result c index with
  | .error f => return .error f
  | .ok r =>
    let w ← get
    if w.config.isJson then return .ok (documentText (methodDocument r))
    else return .ok (Layout.methodText w.config.layout r.source)

def renderWith (o : Layout.Options) (c : Class) : Working String := do
  return Layout.classText o (← source c)

end Workspace

end RegCode
