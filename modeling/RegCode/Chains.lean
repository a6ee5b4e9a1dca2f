import RegCode.Flow.Graph
import RegCode.Table

/-! Reaching definitions, and the chains between definitions and uses. A parameter is defined at a
location of its own before the first statement. -/
namespace RegCode

def paramLoc : Loc := -1

/-! Sorted lists of locations without repetition. -/
namespace Locs

def insert (l : Loc) : List Loc → List Loc
  | [] => [l]
  | a :: as => if a < l then a :: insert l as else if a = l then a :: as else l :: a :: as

def union : List Loc → List Loc → List Loc
  | [], bs => bs
  | a :: as, bs => insert a (union as bs)

def erase (l : Loc) (as : List Loc) : List Loc := as.filter (· != l)

end Locs

/-- Definitions of each variable that reach a point. -/
structure DefSet where
  defs : Array (List Loc)
  deriving DecidableEq, Repr, Inhabited

namespace DefSet

def empty (size : Nat) : DefSet := ⟨Array.replicate size []⟩

def get (s : DefSet) (v : VarId) : List Loc := s.defs[v]?.getD []

def set (s : DefSet) (v : VarId) (locs : List Loc) : DefSet := ⟨s.defs.setIfInBounds v locs⟩

def union (a b : DefSet) : DefSet := ⟨a.defs.zipWith Locs.union b.defs⟩

def after (s : DefSet) (st : Stmt) : DefSet :=
  match st.def? with
  | some v => s.set v [st.loc]
  | none => s

def during (s : DefSet) (st : Stmt) : DefSet :=
  match st.def? with
  | some v => s.set v (Locs.insert st.loc (s.get v))
  | none => s

end DefSet

abbrev Site := VarId × Loc

/-- Uses of every definition, definitions of every use, what reaches the start of every node, the
node of every statement, and the statements that no longer keep the result of their call. -/
structure Chains where
  defUse : Table Site (List Loc)
  useDef : Table Site (List Loc)
  reaching : Array DefSet
  home : Table Loc NodeId
  dropped : List Loc
  deriving Repr, Inhabited

/-- A use that no definition reaches. -/
structure InvariantFault where
  var : VarId
  loc : Loc
  deriving DecidableEq, Repr

def InvariantFault.message (t : VarTable) (f : InvariantFault) : String :=
  "dataflow invariant violated at loc " ++ Text.intText f.loc ++ " (" ++ t.text f.var ++
    "): use without reaching definition"

namespace Reaching

/-- Sets at the start, the end and the handlers of every node. -/
structure State where
  starts : Array DefSet
  ends : Array DefSet
  catches : Array DefSet
  deriving DecidableEq, Repr, Inhabited

def at? (sets : Array DefSet) (size : Nat) (n : NodeId) : DefSet := sets[n]?.getD (DefSet.empty size)

def passNode (g : Graph) (size : Nat) (s : State) (i : NodeId) : State :=
  let n := g.node i
  let start := n.preds.foldl (fun acc p => acc.union (at? s.ends size p)) (at? s.starts size i)
  let start := n.catchPreds.foldl (fun acc p => acc.union (at? s.catches size p)) start
  { starts := s.starts.setIfInBounds i start
    ends := s.ends.setIfInBounds i (n.stmts.foldl DefSet.after start)
    catches :=
      if n.catchSuccs.isEmpty then s.catches
      else s.catches.setIfInBounds i (n.stmts.foldl DefSet.during start) }

def pass (g : Graph) (size : Nat) (s : State) : State := g.rpo.foldl (passNode g size) s

def passes (g : Graph) (size : Nat) : Nat → State → State
  | 0, s => s
  | fuel + 1, s =>
    let t := pass g size s
    if t = s then s else passes g size fuel t

def initial (g : Graph) : State :=
  let size := g.vars.size
  let blank := Array.replicate g.store.size (DefSet.empty size)
  let atEntry := g.params.foldl (fun s p => s.set p [paramLoc]) (DefSet.empty size)
  { starts := match g.entry with
      | some e => blank.setIfInBounds e atEntry
      | none => blank
    ends := blank, catches := blank }

def stmtCount (g : Graph) : Nat := sumOf (fun i => (g.node i).stmts.length) g.rpo

def passBound (g : Graph) : Nat := 3 * (stmtCount g + g.params.length + 1) * (g.rpo.length + 1) + 2

def solution (g : Graph) : State := passes g g.vars.size (passBound g) (initial g)

def solve (g : Graph) : Array DefSet := (solution g).starts

end Reaching

namespace Chains

def empty : Chains := ⟨Table.empty, Table.empty, #[], Table.empty, []⟩

def addUse (c : Chains) (v : VarId) (use d : Loc) : Chains :=
  { c with defUse := c.defUse.insert (v, d) (Locs.insert use (c.defUse.getD (v, d) [])) }

def addDef (c : Chains) (v : VarId) (loc : Loc) : Chains :=
  if c.defUse.contains (v, loc) then c else { c with defUse := c.defUse.insert (v, loc) [] }

def linkUses (loc : Loc) (cur : DefSet) : List VarId → Chains → Except InvariantFault Chains
  | [], c => .ok c
  | v :: rest, c =>
    if c.useDef.contains (v, loc) then linkUses loc cur rest c
    else
      match cur.get v with
      | [] => .error ⟨v, loc⟩
      | defs =>
        let c := { c with useDef := c.useDef.insert (v, loc) defs }
        linkUses loc cur rest (defs.foldl (fun c d => c.addUse v loc d) c)

def linkStmts (node : NodeId) : List Stmt → DefSet → Chains → Except InvariantFault Chains
  | [], _, c => .ok c
  | s :: rest, cur, c => do
    let c ← linkUses s.loc cur s.uses { c with home := c.home.insert s.loc node }
    let c := match s.def? with
      | some v => c.addDef v s.loc
      | none => c
    linkStmts node rest (cur.after s) c

def linkNodes (g : Graph) : List NodeId → Chains → Except InvariantFault Chains
  | [], c => .ok c
  | i :: rest, c => do
    let c ← linkStmts i (g.node i).stmts (Reaching.at? c.reaching g.vars.size i) c
    linkNodes g rest c

def ofGraph (g : Graph) : Except InvariantFault Chains :=
  if g.isEmpty then .ok empty
  else do
    let c ← linkNodes g g.rpo { empty with reaching := Reaching.solve g }
    .ok (g.params.foldl (fun c p => c.addDef p paramLoc) c)

def stmt? (g : Graph) (c : Chains) (loc : Loc) : Option Stmt := do
  let n ← c.home.get? loc
  let s ← (g.node n).stmt? loc <|> g.store.toList.findSome? (·.stmt? loc)
  some (if c.dropped.contains loc then s.withoutResult else s)

def uses (c : Chains) (v : VarId) (d : Loc) : List Loc := c.defUse.getD (v, d) []

def defsOfUse (c : Chains) (v : VarId) (u : Loc) : List Loc := c.useDef.getD (v, u) []

def defs (c : Chains) (v : VarId) : List Loc :=
  ((c.defUse.keys.filter (·.1 == v)).map Prod.snd).mergeSort (· ≤ ·)

def definedVars (c : Chains) : List VarId := ((c.defUse.keys.map Prod.fst).mergeSort (· ≤ ·)).eraseReps

def sorted (t : Table Site (List Loc)) : List (Site × List Loc) :=
  t.entries.mergeSort fun (a, _) (b, _) => decide (a.1 < b.1 ∨ (a.1 = b.1 ∧ a.2 ≤ b.2))

def stillDefines (g : Graph) (c : Chains) (v : VarId) (d : Loc) : Bool :=
  d == paramLoc || (c.stmt? g d).any fun s => s.def? == some v

def defsAt (g : Graph) (c : Chains) (v : VarId) (loc : Loc) : List Loc :=
  match c.home.get? loc with
  | none => []
  | some i =>
    let before := (g.node i).stmts.takeWhile (·.loc != loc)
    let start := (Reaching.at? c.reaching g.vars.size i).get v
    let cur := before.foldl (fun cur s => if s.def? == some v then [s.loc] else cur) start
    cur.filter (stillDefines g c v)

end Chains

/-- A graph together with its chains. -/
structure Analysed where
  graph : Graph
  chains : Chains
  deriving Repr, Inhabited

namespace Analysed

def stmt? (a : Analysed) (loc : Loc) : Option Stmt := a.chains.stmt? a.graph loc

def assignment? (a : Analysed) (loc : Loc) : Option (VarId × Expr) :=
  match (a.stmt? loc).map Stmt.act with
  | some (.assign v e _) => some (v, e)
  | _ => none

def modifyStmt (a : Analysed) (loc : Loc) (f : Stmt → Stmt) : Analysed :=
  if a.chains.home.contains loc then
    { a with graph := { a.graph with store := a.graph.store.map (Node.modifyStmt loc f) } }
  else a

def dropUse (v : VarId) (loc : Loc) (c : Chains) : List Loc → Chains × List Site
  | [] => (c, [])
  | d :: rest =>
    match c.defUse.get? (v, d) with
    | none => dropUse v loc c rest
    | some us =>
      let us := Locs.erase loc us
      let (c, dead) := dropUse v loc { c with defUse := c.defUse.insert (v, d) us } rest
      (c, if us.isEmpty && d != paramLoc then (v, d) :: dead else dead)

def dropUses (loc : Loc) : List VarId → Chains → Chains × List Site
  | [], c => (c, [])
  | v :: rest, c =>
    let (c, dead) := dropUse v loc c (c.defsOfUse v loc)
    let (c, more) := dropUses loc rest { c with useDef := c.useDef.erase (v, loc) }
    (c, dead ++ more)

def removeStmt (a : Analysed) (loc : Loc) : Analysed × List Site :=
  match a.stmt? loc, a.chains.home.get? loc with
  | some s, some i =>
    let (c, dead) := dropUses loc s.uses a.chains
    let c := match s.def? with
      | some v => { c with defUse := c.defUse.erase (v, loc) }
      | none => c
    ({ graph := a.graph.modify i fun n => { n with stmts := n.stmts.filter (·.loc != loc) }
       chains := { c with home := c.home.erase loc } }, dead)
  | _, _ => (a, [])

end Analysed

/-! Lifetimes that share a register but no use become variables of their own. Definitions that
reach a common use belong together; such a group is a web. -/

abbrev Webs := List (List Loc)

namespace Webs

def join (ws : Webs) (locs : List Loc) : Webs :=
  let meets (w : List Loc) : Bool := w.any locs.contains
  (ws.filter meets).foldl Locs.union [] :: ws.filter fun w => !meets w

def ofChains (c : Chains) (v : VarId) : Webs :=
  let uses := (c.useDef.entries.filter fun (site, _) => site.1 == v).map Prod.snd
  let ws := uses.foldl join ((c.defs v).map fun d => [d])
  (ws.filter fun w => !w.isEmpty).mergeSort fun a b => decide (a.headD 0 ≤ b.headD 0)

end Webs

namespace Analysed

def renameWeb (v new : VarId) (a : Analysed) (web : List Loc) : Analysed :=
  web.foldl (fun a d =>
    let a := a.modifyStmt d (Stmt.renameDef new)
    (a.chains.uses v d).foldl (fun a u => a.modifyStmt u (Stmt.renameUses v new)) a) a

def splitVariable (a : Analysed) (v : VarId) : Analysed :=
  (Webs.ofChains a.chains v).tail.foldl (fun a web =>
    let (vars, new) := a.graph.vars.fresh v
    ({ a with graph := { a.graph with vars } }).renameWeb v new web) a

def splitLifetimes (a : Analysed) : Except InvariantFault Analysed :=
  let b := a.chains.definedVars.foldl splitVariable a
  if b.graph.vars.size = a.graph.vars.size then .ok a
  else do
    let chains ← Chains.ofGraph b.graph
    .ok { b with chains }

end Analysed

/-! Definitions without a use go away. A call stays as a statement without a result, and what can
raise under protection stays. -/

def Expr.isStatement : Expr → Bool
  | .call _ _ _ | .callOn _ _ _ _ => true
  | .newObject _ _ init => init
  | _ => false

namespace Analysed

def dropResult (a : Analysed) (i : NodeId) (v : VarId) (loc : Loc) : Analysed :=
  { graph := a.graph.modify i (Node.modifyStmt loc Stmt.withoutResult)
    chains :=
      { a.chains with
        defUse := a.chains.defUse.erase (v, loc)
        dropped := loc :: a.chains.dropped } }

def eliminateSite (a : Analysed) (site : Site) : Analysed × Bool × List Site :=
  let (v, loc) := site
  match a.assignment? loc, a.chains.home.get? loc with
  | some (w, value), some i =>
    if w ≠ v ∨ a.chains.uses v loc ≠ [] then (a, false, [])
    else if value.hasEffects then
      (if value.isStatement then a.dropResult i v loc else a, false, [])
    else if value.canThrow && !(a.graph.node i).catchSuccs.isEmpty then (a, false, [])
    else
      let (a, dead) := a.removeStmt loc
      (a, true, dead)
  | _, _ => (a, false, [])

def eliminateFrom : Nat → Analysed → List Site → Nat → Analysed × Nat
  | 0, a, _, removed => (a, removed)
  | _, a, [], removed => (a, removed)
  | fuel + 1, a, site :: work, removed =>
    let (a, gone, dead) := a.eliminateSite site
    eliminateFrom fuel a (work ++ dead) (if gone then removed + 1 else removed)

def eliminateDeadCode (a : Analysed) : Analysed × Nat :=
  let unused := (Chains.sorted a.chains.defUse).filter fun ((_, loc), uses) =>
    uses.isEmpty && loc != paramLoc
  let work := (unused.map Prod.fst).mergeSort fun x y => decide (x.2 ≤ y.2)
  let links := sumOf (fun (_, ds) => ds.length) a.chains.useDef.entries
  eliminateFrom (work.length + links + 1) a work 0

end Analysed

end RegCode
