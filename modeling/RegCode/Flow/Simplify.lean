import RegCode.Flow.Graph

/-! Normal form for structuring: tests stand alone in their nodes, straight runs are one node, and
empty nodes are gone where that changes no choice. -/
namespace RegCode.Graph

/-- Parts the statements in front of the test of a node from it. The new node in front takes over
predecessors and handler entry; the test keeps exceptional edges only if it can raise. -/
def splitTest (g : Graph) (i : NodeId) : Graph :=
  let n := g.node i
  match n.stmts.getLast? with
  | none => g
  | some last =>
    if (n.kind != .cond && n.kind != .switch) || n.stmts.length < 2 then g
    else
      let (g, pre) := g.addNode
        { start := n.start, stmts := n.stmts.dropLast, region := n.region, handler := n.handler
          preds := n.preds, catchPreds := n.catchPreds }
      let g := g.modify i fun n => { n with stmts := [last], handler := false }
      let g := g.modifyAll n.preds (Node.retarget i pre)
      let g := g.modifyAll n.catchPreds (Node.retargetCatch i pre)
      let g := g.modify i fun n => { n with preds := [], catchPreds := [] }
      let g := g.addEdge pre i
      let handlers := (g.node i).catchSuccs
      let g := handlers.foldl (fun g h => g.addCatchEdge pre h) g
      let g :=
        if last.canThrow then g
        else
          (g.modifyAll handlers fun h => { h with catchPreds := without i h.catchPreds }).modify i
            fun n => { n with catchSuccs := [] }
      { g with
        entry := g.entry.map fun e => if e = i then pre else e
        regions := g.regions.map fun r =>
          { r with handlers := r.handlers.map fun h => if h.entry = i then { h with entry := pre } else h } }

def splitTests (g : Graph) : Graph := g.nodes.foldl splitTest g

def mergeable? (g : Graph) (i : NodeId) : Option NodeId :=
  let n := g.node i
  match n.kind, n.succs with
  | .stmt, [j] =>
    let s := g.node j
    if j = i || g.entry == some j || s.handler || s.preds.length != 1 || !s.catchPreds.isEmpty ||
        s.kind == .cond || s.kind == .switch || n.region != s.region || s.succs.contains j
    then none else some j
  | _, _ => none

def merge (g : Graph) (i j : NodeId) : Graph :=
  let s := g.node j
  let g := g.modify i fun n => { n with stmts := n.stmts ++ s.stmts, kind := s.kind, succs := [] }
  let g := s.succs.foldl (fun g t =>
    (g.modify t fun n => { n with preds := without j n.preds }).addEdge i t) g
  let g := s.catchSuccs.foldl (fun g h =>
    (g.modify h fun n => { n with catchPreds := without j n.catchPreds }).addCatchEdge i h) g
  let g := g.modify j fun n => { n with succs := [], catchSuccs := [], preds := [] }
  { g with nodes := without j g.nodes }

def removable? (g : Graph) (i : NodeId) : Option NodeId :=
  let n := g.node i
  match n.kind, n.stmts, n.succs with
  | .stmt, [], [j] =>
    let merges (p : Node) : Bool :=
      (p.kind == .cond && (p.onTrue == some j || p.onFalse == some j)) ||
      (p.kind == .switch && p.succs.contains j)
    if n.handler || j = i || (g.entry == some i && (g.node j).preds.length > 1) ||
        n.preds.any (fun p => merges (g.node p))
    then none else some j
  | _, _, _ => none

def bypass (g : Graph) (i j : NodeId) : Graph :=
  let n := g.node i
  let g := g.modify j fun s => { s with preds := without i s.preds }
  let g := n.preds.foldl (fun g p =>
    (g.modify p (Node.retarget i j)).modify j fun s => { s with preds := insertOnce p s.preds }) g
  let g := g.modifyAll n.catchSuccs fun h => { h with catchPreds := without i h.catchPreds }
  let g := { g with entry := g.entry.map fun e => if e = i then j else e }
  let g := g.modify i fun n => { n with preds := [], succs := [], catchSuccs := [] }
  { g with nodes := without i g.nodes }

def reduce? (g : Graph) (i : NodeId) : Option Graph :=
  if !g.nodes.contains i then none
  else
    match g.mergeable? i with
    | some j => some (g.merge i j)
    | none => (g.removable? i).map (g.bypass i)

def sweep (g : Graph) : Graph × Bool :=
  g.nodes.foldl (fun (g, changed) i =>
    match g.reduce? i with
    | some g => (g, true)
    | none => (g, changed)) (g, false)

def sweeps : Nat → Graph → Graph
  | 0, g => g
  | fuel + 1, g =>
    let (g, changed) := g.sweep
    if changed then sweeps fuel g else g

def simplify (g : Graph) : Graph :=
  if g.isEmpty then g else (sweeps (g.nodes.length + 1) g).renumber

end RegCode.Graph
