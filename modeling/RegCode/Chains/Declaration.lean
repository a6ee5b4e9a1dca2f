import RegCode.Chains
import RegCode.Flow.Dominators

/-! Types and places of declaration for the variables of a method. -/
namespace RegCode.Analysed

def definedType (a : Analysed) (v : VarId) : String :=
  let values := (a.chains.defs v).filterMap fun d => (a.assignment? d).map Prod.snd
  let typed := values.filter fun e => e.type a.graph.vars != ""
  match typed.find? (!·.isConstant) with
  | some e => e.type a.graph.vars
  | none => (typed.head?.map (Expr.type a.graph.vars)).getD ""

def inferVar (acc : Analysed × Bool) (v : VarId) : Analysed × Bool :=
  let (a, changed) := acc
  if (a.graph.vars.get v).type ≠ "" then (a, changed)
  else
    let type := a.definedType v
    if type = "" then (a, changed)
    else ({ a with graph := { a.graph with vars := a.graph.vars.setType v type } }, true)

def inferRounds : Nat → Analysed → Analysed
  | 0, a => a
  | fuel + 1, a =>
    let (a, changed) := a.chains.definedVars.foldl inferVar (a, false)
    if changed then inferRounds fuel a else a

def inferTypes (a : Analysed) : Analysed := a.inferRounds (a.graph.vars.size + 1)

def siteNodes (a : Analysed) (v : VarId) : List NodeId :=
  let defs := (a.chains.defs v).filter fun d => (a.stmt? d).isSome
  let locs := defs.flatMap fun d => d :: a.chains.uses v d
  (locs.filterMap a.chains.home.get?).eraseDups

/-- Moves a place of declaration out of loops and regions that miss a site. -/
def hoist (g : Graph) (d : Dominators) (loops : LoopForest) (sites : List NodeId) :
    Nat → NodeId → NodeId
  | 0, n => n
  | fuel + 1, n =>
    let outOfLoop? := (loops.innermost? n).bind fun l =>
      if sites.all l.contains then none else some (d.idom? l.header)
    let outOfRegion? := (g.node n).region.bind fun r =>
      if sites.all fun s => g.encloses r (g.node s).region then none else some (d.idom? n)
    match outOfLoop?, outOfRegion? with
    | some (some up), _ => hoist g d loops sites fuel up
    | some none, _ => n
    | none, some (some up) => hoist g d loops sites fuel up
    | none, some none => n
    | none, none => n

def firstAssigned? (v : VarId) : List Stmt → Option Loc
  | [] => none
  | s :: rest =>
    if s.uses.contains v then none
    else if s.def? = some v then some s.loc
    else firstAssigned? v rest

def declareIn (a : Analysed) (i : NodeId) (v : VarId) : Analysed :=
  match firstAssigned? v (a.graph.node i).stmts with
  | some loc =>
    { a with
      graph := { a.graph with store := a.graph.store.map (Node.modifyStmt loc Stmt.declaring) } }
  | none =>
    let loc := a.graph.nextLoc
    let g := a.graph.modify i fun n => { n with stmts := ⟨loc, .declare v⟩ :: n.stmts }
    { graph := { g with nextLoc := loc + 1 }
      chains := { a.chains with home := a.chains.home.insert loc i } }

def placeVar (d : Dominators) (loops : LoopForest) (acc : Analysed × List (VarId × NodeId))
    (v : VarId) : Analysed × List (VarId × NodeId) :=
  let (a, placed) := acc
  if (a.graph.vars.get v).isParam then acc
  else
    let sites := a.siteNodes v
    match d.commonAll sites with
    | none => acc
    | some n =>
      let n := hoist a.graph d loops sites (a.graph.store.size + 1) n
      (a.declareIn n v, placed ++ [(v, n)])

def placeDeclarations (a : Analysed) (d : Dominators) (loops : LoopForest) :
    Analysed × List (VarId × NodeId) :=
  let a := a.inferTypes
  a.chains.definedVars.foldl (placeVar d loops) (a, [])

end RegCode.Analysed
