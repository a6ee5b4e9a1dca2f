import RegCode.Stmt

/-! Control-flow graphs. Nodes hold statements; normal edges leave a node at its end, exceptional
edges at any point. Every node ever made stays in the store under its number; the graph itself is
the nodes that `nodes` lists. -/
namespace RegCode

abbrev NodeId := Nat
abbrev RegionId := Nat

inductive NodeKind where
  | stmt | cond | switch | ret | throw
  deriving DecidableEq, Repr, Inhabited

namespace NodeKind

def name : NodeKind → String
  | stmt => "stmt" | cond => "cond" | switch => "switch" | ret => "return" | throw => "throw"

def letter : NodeKind → String
  | stmt => "S" | cond => "C" | switch => "W" | ret => "R" | throw => "T"

def isExit : NodeKind → Bool
  | ret | throw => true
  | _ => false

end NodeKind

/-- Keys of a switch that lead to one node. -/
structure SwitchCase where
  keys : List Int
  target : NodeId
  deriving DecidableEq, Repr, Inhabited

structure Node where
  num : Int := -1
  kind : NodeKind := .stmt
  start : Int := 0
  stmts : List Stmt := []
  succs : List NodeId := []
  preds : List NodeId := []
  catchSuccs : List NodeId := []
  catchPreds : List NodeId := []
  onTrue : Option NodeId := none
  onFalse : Option NodeId := none
  cases : List SwitchCase := []
  default : Option NodeId := none
  region : Option RegionId := none
  handler : Bool := false
  deriving Repr, Inhabited

namespace Node

def last? (n : Node) : Option Stmt := n.stmts.getLast?

def stmt? (n : Node) (loc : Loc) : Option Stmt := n.stmts.find? (·.loc == loc)

def modifyStmt (loc : Loc) (f : Stmt → Stmt) (n : Node) : Node :=
  { n with stmts := n.stmts.map fun s => if s.loc = loc then f s else s }

def test? (n : Node) : Option Test :=
  match n.last?.map Stmt.act with
  | some (.branch c) => some c
  | _ => none

def allSuccs (n : Node) : List NodeId := n.succs ++ n.catchSuccs

def allPreds (n : Node) : List NodeId := n.preds ++ n.catchPreds

def retarget (old new : NodeId) (n : Node) : Node :=
  let move (i : NodeId) := if i = old then new else i
  { n with
    succs := (n.succs.map move).eraseDups
    onTrue := n.onTrue.map move
    onFalse := n.onFalse.map move
    cases := n.cases.map fun c => { c with target := move c.target }
    default := n.default.map move }

def retargetCatch (old new : NodeId) (n : Node) : Node :=
  { n with catchSuccs := (n.catchSuccs.map fun i => if i = old then new else i).eraseDups }

end Node

structure CatchEntry where
  type : String
  entry : NodeId
  deriving DecidableEq, Repr, Inhabited

/-- Code with one list of handlers. The handlers of an inner region end with those of the region
around it. -/
structure Region where
  handlers : List CatchEntry
  parent : Option RegionId
  deriving DecidableEq, Repr, Inhabited

structure Graph where
  vars : VarTable := VarTable.empty
  params : List VarId := []
  entry : Option NodeId := none
  store : Array Node := #[]
  nodes : List NodeId := []
  rpo : List NodeId := []
  regions : Array Region := #[]
  nextLoc : Loc := 0
  deriving Repr, Inhabited

namespace Graph

def node (g : Graph) (i : NodeId) : Node := g.store[i]?.getD {}

def modify (g : Graph) (i : NodeId) (f : Node → Node) : Graph := { g with store := g.store.modify i f }

def name (g : Graph) (i : NodeId) : String := (g.node i).kind.letter ++ Text.natText i

def isEmpty (g : Graph) : Bool := g.entry.isNone

def exits (g : Graph) : List NodeId := g.nodes.filter fun i => (g.node i).kind.isExit

def addNode (g : Graph) (n : Node) : Graph × NodeId :=
  ({ g with store := g.store.push n, nodes := g.nodes ++ [g.store.size] }, g.store.size)

def insertOnce (i : NodeId) (is : List NodeId) : List NodeId := if is.contains i then is else is ++ [i]

def addEdge (g : Graph) (a b : NodeId) : Graph :=
  (g.modify a fun n => { n with succs := insertOnce b n.succs }).modify b fun n =>
    { n with preds := insertOnce a n.preds }

def addCatchEdge (g : Graph) (a b : NodeId) : Graph :=
  (g.modify a fun n => { n with catchSuccs := insertOnce b n.catchSuccs }).modify b fun n =>
    { n with catchPreds := insertOnce a n.catchPreds }

def without (i : NodeId) (is : List NodeId) : List NodeId := is.filter (· != i)

def modifyAll (g : Graph) (is : List NodeId) (f : Node → Node) : Graph :=
  is.foldl (fun g i => g.modify i f) g

def removeNode (g : Graph) (i : NodeId) : Graph :=
  let n := g.node i
  let g := { g with nodes := without i g.nodes }
  let g := g.modifyAll n.succs fun s => { s with preds := without i s.preds }
  let g := g.modifyAll n.catchSuccs fun s => { s with catchPreds := without i s.catchPreds }
  let g := g.modifyAll n.preds fun p => { p with succs := without i p.succs }
  g.modifyAll n.catchPreds fun p => { p with catchSuccs := without i p.catchSuccs }

def region? (g : Graph) (r : RegionId) : Option Region := g.regions[r]?

def parentOf (g : Graph) (r : RegionId) : Option RegionId := (g.regions[r]?).bind (·.parent)

def regionChain (g : Graph) : Nat → Option RegionId → List RegionId
  | 0, _ => []
  | _, none => []
  | fuel + 1, some r => r :: regionChain g fuel (g.parentOf r)

def regionsAround (g : Graph) (r : Option RegionId) : List RegionId := g.regionChain g.regions.size r

def encloses (g : Graph) (outer : RegionId) (inner : Option RegionId) : Bool :=
  (g.regionsAround inner).contains outer

def depth (g : Graph) (r : RegionId) : Nat := (g.regionsAround (some r)).length

def located (g : Graph) : List (NodeId × Stmt) :=
  g.nodes.flatMap fun i => (g.node i).stmts.map (i, ·)

end Graph

end RegCode

/-! Reverse postorder of a depth-first search that follows exceptional edges before normal ones.
What the search does not reach is dropped. -/
namespace RegCode.Flow

/-- Nodes met so far, and the finished ones, the last finished first. -/
structure Search where
  seen : List NodeId
  order : List NodeId
  deriving Repr, Inhabited

def explore (next : NodeId → List NodeId) (depth : Nat) (work : List NodeId) (s : Search) : Search :=
  match depth, work with
  | _, [] => s
  | 0, _ :: _ => s
  | depth + 1, n :: rest =>
    if s.seen.contains n then explore next (depth + 1) rest s
    else
      let inner := explore next depth (next n) { s with seen := n :: s.seen }
      explore next (depth + 1) rest { inner with order := n :: inner.order }
termination_by (depth, work.length)

end RegCode.Flow

namespace RegCode.Graph

def searchOrder (g : Graph) (i : NodeId) : List NodeId := (g.node i).catchSuccs ++ (g.node i).succs

def reversePostorder (g : Graph) : List NodeId :=
  (Flow.explore g.searchOrder (g.store.size + 1) g.entry.toList ⟨[], []⟩).order

def numberFrom (g : Graph) : Nat → List NodeId → Graph
  | _, [] => g
  | k, i :: rest => (g.modify i fun n => { n with num := k }).numberFrom (k + 1) rest

def renumber (g : Graph) : Graph :=
  if g.isEmpty then g
  else
    let order := g.reversePostorder
    let gone := g.nodes.filter fun i => !order.contains i
    let g := gone.foldl (fun g i => (g.modify i fun n => { n with num := -1 }).removeNode i) g
    { g.numberFrom 0 order with rpo := order, nodes := order }

end RegCode.Graph
