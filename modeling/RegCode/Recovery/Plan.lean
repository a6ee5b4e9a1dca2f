import RegCode.Flow.Dominators
import RegCode.Recovery.Policy
import RegCode.Table
import RegCode.Tree

/-! What is known of a graph before it becomes a tree: the form of every loop, where branches and
switches meet again, and where protected code and handlers are left. -/
namespace RegCode

namespace Graph

def earliest (g : Graph) : List NodeId → Option NodeId
  | [] => none
  | n :: rest =>
    match earliest g rest with
    | none => some n
    | some m => if (g.node m).num < (g.node n).num then some m else some n

def latest (g : Graph) : List NodeId → Option NodeId
  | [] => none
  | n :: rest =>
    match latest g rest with
    | none => some n
    | some m => if (g.node n).num < (g.node m).num then some m else some n

end Graph

/-- How a loop is written: its test, its first node, the node after it, and where an early start
of the next round goes. -/
structure LoopShape where
  loop : Loop
  kind : LoopKind
  test : Option NodeId
  start : NodeId
  follow : Option NodeId
  continueAt : NodeId
  deriving Repr, Inhabited

namespace LoopShape

def exits (g : Graph) (l : Loop) : List NodeId :=
  ((l.ordered g).flatMap fun n => (g.node n).succs.filter fun s => !l.contains s).eraseDups

def endless (g : Graph) (l : Loop) : LoopShape :=
  let out := exits g l
  let meeting := out.filter fun n => decide (2 ≤ (g.node n).preds.length)
  { loop := l
    kind := .endless
    test := none
    start := l.header
    follow := (g.earliest meeting).or (g.earliest out)
    continueAt := l.header }

/-- The header decides between the body and the way out. -/
def pretest? (g : Graph) (l : Loop) : Option LoopShape := do
  let h := g.node l.header
  if h.kind != .cond then none
  let t ← h.onTrue
  let f ← h.onFalse
  if l.contains t == l.contains f then none
  let (start, follow) := if l.contains t then (t, f) else (f, t)
  some
    { loop := l
      kind := .pretest
      test := some l.header
      start
      follow := some follow
      continueAt := l.header }

/-- The only latch, other than the header, decides between the next round and the way out. -/
def posttest? (g : Graph) (l : Loop) : Option LoopShape :=
  match l.latches with
  | [latch] => do
    let n := g.node latch
    if latch = l.header ∨ n.kind ≠ .cond then none
    let out ←
      if n.onTrue == some l.header then n.onFalse
      else if n.onFalse == some l.header then n.onTrue
      else none
    if l.contains out then none
    some
      { loop := l
        kind := .posttest
        test := some latch
        start := l.header
        follow := some out
        continueAt := latch }
  | _ => none

def ofLoop (g : Graph) (policy : LoopPolicy) (l : Loop) : LoopShape :=
  let tested :=
    match policy with
    | .pretestFirst => (pretest? g l).or (posttest? g l)
    | .posttestFirst => (posttest? g l).or (pretest? g l)
  tested.getD (endless g l)

end LoopShape

structure Plan where
  graph : Graph
  doms : Dominators
  loops : LoopForest
  policy : Policy
  shapes : List LoopShape
  branchFollows : Table NodeId NodeId
  switchFollows : Table NodeId NodeId
  deriving Repr, Inhabited

namespace Plan

def sameLoop (loops : LoopForest) (n m : NodeId) : Bool :=
  match loops.innermost? n with
  | none => true
  | some l => l.contains m && m != l.header

def meetings (g : Graph) (d : Dominators) (loops : LoopForest) (n : NodeId) : List NodeId :=
  (d.children g.rpo n).filter fun m => decide (2 ≤ (g.node m).preds.length) && sameLoop loops n m

/-- Meeting points found so far, and the branches that still lack one. -/
structure Follows where
  found : Table NodeId NodeId
  waiting : List NodeId

def addBranch (g : Graph) (d : Dominators) (loops : LoopForest) (s : Follows) (n : NodeId) : Follows :=
  match g.latest (meetings g d loops n) with
  | none => { s with waiting := s.waiting ++ [n] }
  | some f =>
    let joins (u : NodeId) : Bool :=
      d.dominates n u && decide ((g.node u).num < (g.node f).num) && sameLoop loops u f
    { found := (s.waiting.filter joins).foldl (fun t u => t.insert u f) (s.found.insert n f)
      waiting := s.waiting.filter fun u => !joins u }

def followsOfBranches (g : Graph) (d : Dominators) (loops : LoopForest) (tests : List NodeId) :
    Table NodeId NodeId :=
  let branches := g.rpo.reverse.filter fun n => (g.node n).kind == .cond && !tests.contains n
  (branches.foldl (addBranch g d loops) ⟨.empty, []⟩).found

def followOfSwitch (g : Graph) (d : Dominators) (loops : LoopForest) (n : NodeId) : Option NodeId :=
  let node := g.node n
  let isArm (m : NodeId) : Bool := node.cases.any (·.target == m)
  (g.latest ((meetings g d loops n).filter fun m => !isArm m)).or
    (node.default.filter fun m => !isArm m && decide (2 ≤ (g.node m).preds.length))

def followsOfSwitches (g : Graph) (d : Dominators) (loops : LoopForest) : Table NodeId NodeId :=
  (g.rpo.filter fun n => (g.node n).kind == .switch).foldl (fun t n =>
    match followOfSwitch g d loops n with
    | some f => t.insert n f
    | none => t) .empty

def ofGraph (g : Graph) (d : Dominators) (policy : Policy) : Plan :=
  let loops := LoopForest.ofGraph g d
  let shapes := loops.loops.map (LoopShape.ofLoop g policy.loop)
  { graph := g
    doms := d
    loops
    policy
    shapes
    branchFollows := followsOfBranches g d loops (shapes.filterMap (·.test))
    switchFollows := followsOfSwitches g d loops }

def shape? (p : Plan) (header : NodeId) : Option LoopShape := p.shapes.find? (·.loop.header == header)

def exitsOf (g : Graph) (inside : NodeId → Bool) : List NodeId :=
  ((g.rpo.filter inside).flatMap fun n => (g.node n).succs.filter fun s => !inside s).eraseDups

def regionExits (p : Plan) (r : RegionId) : List NodeId :=
  exitsOf p.graph fun n => p.graph.encloses r (p.graph.node n).region

def handlerExits (p : Plan) (entry : NodeId) : List NodeId :=
  exitsOf p.graph (p.doms.dominates entry)

end Plan

end RegCode
