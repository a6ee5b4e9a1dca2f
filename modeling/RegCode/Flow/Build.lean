import RegCode.Block
import RegCode.Flow.Graph
import RegCode.Lower

/-! The control-flow graph of a method: one node for every basic block that control can reach. -/
namespace RegCode

/-- Why a method has no graph: a block cannot be lowered, or an edge leads to no block. -/
inductive BuildFault where
  | lower (fault : LowerFault)
  | noBlock (offset : Int)
  deriving DecidableEq, Repr

namespace Flow

/-- The graph so far, nodes by the offsets of their blocks, regions by the texts of their handlers,
and blocks still to be lowered. -/
structure Builder where
  graph : Graph
  known : List (Int × NodeId) := []
  regions : List (String × RegionId) := []
  queue : List Block := []

abbrev Building := StateT Builder (Except BuildFault)

def modifyGraph (f : Graph → Graph) : Building Unit :=
  modify fun b => { b with graph := f b.graph }

def visit (blocks : List Block) (offset : Int) : Building (Option NodeId) := do
  let b ← get
  match b.known.lookup offset with
  | some i => pure (some i)
  | none =>
    match blocks.find? (·.start == offset) with
    | none => pure none
    | some block =>
      let (graph, i) := b.graph.addNode { start := offset }
      set { b with graph, known := (offset, i) :: b.known, queue := b.queue ++ [block] }
      pure (some i)

def visitFall (blocks : List Block) (b : Block) : Building (Option NodeId) :=
  visit blocks (b.fall.getD (-1))

def visitNext (blocks : List Block) (b : Block) : Building (Option NodeId) :=
  match b.fall with
  | some offset => if 0 ≤ offset then visit blocks offset else pure none
  | none => pure none

def require (offset : Int) (i : Option NodeId) : Building NodeId :=
  match i with
  | some i => pure i
  | none => throw (.noBlock offset)

def link (n : NodeId) (target : Option NodeId) : Building Unit :=
  match target with
  | some t => modifyGraph (·.addEdge n t)
  | none => pure ()

def lowerBlock (m : Method) (b : Block) : Building (List Stmt) := do
  let s ← get
  match (Lower.block m b.insts).run s.graph.vars with
  | .error f => throw (.lower f)
  | .ok (stmts, vars) =>
    set { s with graph := { s.graph with vars } }
    pure stmts

def addKey (key : Int) (target : NodeId) : List SwitchCase → List SwitchCase
  | [] => [⟨[key], target⟩]
  | c :: cs =>
    if c.target = target then { c with keys := c.keys ++ [key] } :: cs else c :: addKey key target cs

def linkCases (blocks : List Block) (n : NodeId) :
    List (Int × Int) → List SwitchCase → Building (List SwitchCase)
  | [], cases => pure cases
  | (key, offset) :: rest, cases => do
    match ← visit blocks offset with
    | none => linkCases blocks n rest cases
    | some t =>
      modifyGraph (·.addEdge n t)
      linkCases blocks n rest (addKey key t cases)

def sortKeys (c : SwitchCase) : SwitchCase := { c with keys := c.keys.mergeSort (· ≤ ·) }

/-- Kind and normal edges of a node by the last instruction of its block. -/
def linkNode (blocks : List Block) (n : NodeId) (b : Block) (last : Instruction) : Building Unit := do
  match last.family with
  | .return | .returnVoid => modifyGraph (·.modify n fun x => { x with kind := .ret })
  | .throw => modifyGraph (·.modify n fun x => { x with kind := .throw })
  | .goto => link n (← visit blocks last.target)
  | .ifTest | .ifZero =>
    let t ← visit blocks last.target
    let f ← visitFall blocks b
    if t = f then
      modifyGraph (·.modify n fun x => { x with stmts := x.stmts.dropLast })
      link n t
    else
      let onTrue ← require last.target t
      let onFalse ← require (b.fall.getD (-1)) f
      modifyGraph (·.modify n fun x =>
        { x with kind := .cond, onTrue := some onTrue, onFalse := some onFalse })
      modifyGraph (·.addEdge n onTrue)
      modifyGraph (·.addEdge n onFalse)
  | .packedSwitch | .sparseSwitch =>
    let table := last.switch.getD ⟨[], []⟩
    let cases ← linkCases blocks n (table.keys.zip table.targets) []
    modifyGraph (·.modify n fun x => { x with kind := .switch, cases := cases.map sortKeys })
    match ← visitFall blocks b with
    | some f =>
      modifyGraph (·.modify n fun x => { x with default := some f })
      modifyGraph (·.addEdge n f)
    | none => pure ()
  | _ => link n (← visitNext blocks b)

def handlersKey (hs : List Handler) : String :=
  ",".intercalate (hs.map fun h => h.type ++ "@" ++ Text.intText h.target)

def enterHandlers (blocks : List Block) : List Handler → Building (List CatchEntry)
  | [] => pure []
  | h :: rest => do
    let entry ← require h.target (← visit blocks h.target)
    modifyGraph (·.modify entry fun x => { x with handler := true })
    let more ← enterHandlers blocks rest
    pure (⟨h.type, entry⟩ :: more)

def regionOf (blocks : List Block) (t : TryRange) : Building RegionId := do
  let key := handlersKey t.handlers
  match (← get).regions.lookup key with
  | some r => pure r
  | none =>
    let handlers ← enterHandlers blocks t.handlers
    let b ← get
    let r := b.graph.regions.size
    set { b with
      graph := { b.graph with regions := b.graph.regions.push ⟨handlers, none⟩ }
      regions := (key, r) :: b.regions }
    pure r

def protect (m : Method) (blocks : List Block) (n : NodeId) (b : Block) : Building Unit := do
  match m.tries.find? (·.covers b.start) with
  | none => pure ()
  | some t =>
    let r ← regionOf blocks t
    modifyGraph (·.modify n fun x => { x with region := some r })
    modifyGraph fun g => ((g.regions[r]?.map (·.handlers)).getD []).foldl
      (fun g h => g.addCatchEdge n h.entry) g

def buildNode (m : Method) (blocks : List Block) (b : Block) : Building Unit := do
  match (← get).known.lookup b.start with
  | none => pure ()
  | some n =>
    let stmts ← lowerBlock m b
    modifyGraph (·.modify n fun x => { x with stmts })
    match b.last? with
    | some last => linkNode blocks n b last
    | none => throw (.noBlock b.start)
    protect m blocks n b

def buildQueue (m : Method) (blocks : List Block) : Nat → Building Unit
  | 0 => pure ()
  | fuel + 1 => do
    let s ← get
    match s.queue with
    | [] => pure ()
    | b :: rest =>
      set { s with queue := rest }
      buildNode m blocks b
      buildQueue m blocks fuel

def seedParams : VarTable → Int → List (String × Bool) → VarTable × List VarId
  | t, _, [] => (t, [])
  | t, r, (type, this) :: rest =>
    let (t, v) := t.param r type this
    let (t, vs) := seedParams t (Text.wrap64 (r + if this then 1 else Descriptor.size type)) rest
    (t, v :: vs)

def parameters (m : Method) : VarTable × List VarId :=
  let receiver := if m.isStatic then [] else [(m.owner, true)]
  seedParams VarTable.empty (Text.wrap64 (m.registers - m.ins)) (receiver ++ m.paramTypes.map (·, false))

def guardEntry (g : Graph) : Graph :=
  match g.entry with
  | none => g
  | some e =>
    if (g.node e).allPreds.isEmpty then g
    else
      let (g, pre) := g.addNode { start := (g.node e).start }
      { g.addEdge pre e with entry := some pre }

def parentRegion (regions : List Region) (r : Region) : Option RegionId :=
  (regions.zipIdx.foldl (fun (best : Option (Nat × RegionId)) (o, i) =>
    let n := o.handlers.length
    if n < r.handlers.length && o.handlers == r.handlers.drop (r.handlers.length - n) &&
        best.all (fun (k, _) => decide (k < n))
    then some (n, i) else best) none).map Prod.snd

def linkRegions (g : Graph) : Graph :=
  let all := g.regions.toList
  { g with regions := g.regions.map fun r => { r with parent := parentRegion all r } }

def numberStmts : Loc → List Stmt → List Stmt
  | _, [] => []
  | k, s :: rest => { s with loc := k } :: numberStmts (k + 1) rest

def numberStatements (g : Graph) : Graph :=
  g.nodes.foldl (fun g i =>
    let stmts := (g.node i).stmts
    { g.modify i (fun n => { n with stmts := numberStmts g.nextLoc stmts }) with
      nextLoc := g.nextLoc + stmts.length }) g

end Flow

open RegCode.Flow in
/-- The graph of a method; empty without code. -/
def Graph.ofMethod (m : Method) : Except BuildFault Graph :=
  if !m.hasCode then .ok {}
  else
    let (vars, params) := parameters m
    let blocks := Block.split m
    match blocks with
    | [] => .ok { vars, params }
    | first :: _ => do
      let start : Builder := { graph := { vars, params } }
      let ((), b) ← (do
        let entry ← visit blocks first.start
        modifyGraph fun g => { g with entry }
        buildQueue m blocks blocks.length : Building Unit).run start
      .ok (numberStatements (linkRegions (guardEntry b.graph))).renumber

end RegCode
