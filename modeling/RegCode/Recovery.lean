import RegCode.Recovery.Plan

/-! Structured code from a graph. From the entry on, nodes are written one after the other; what a
node starts (protected code, a loop, a branch, a switch) is written whole, and then the code goes
on where it meets again. A way that no structure covers becomes a jump to a label, and nodes that
were not met come last. -/
namespace RegCode.Recovery

/-- Names a part of the tree while the tree grows, so that labels can be given later. `own` is the
label that the part gets when a jump out of it has to name it. A jump to a label carries the node
that it leads to; `none` is for parts that nothing refers to. -/
inductive Key where
  | none
  | part (id : Nat) (own : String)
  | aim (node : NodeId)
  deriving DecidableEq, Repr, Inhabited

def Key.own : Key → String
  | part _ own => own
  | _ => ""

abbrev Piece := Tree Key

inductive Mark where
  | unvisited | entered | finished
  deriving DecidableEq, Repr, Inhabited

def Mark.number : Mark → Nat
  | unvisited => 0 | entered => 1 | finished => 2

/-- Clauses of protected code as first written. -/
inductive Clauses where
  | catches (heads : List CatchHead)
  | cleanup (entry : NodeId)
  deriving DecidableEq, Repr, Inhabited

structure State where
  marks : Table NodeId Mark := .empty
  placed : Table NodeId Key := .empty
  wanted : List NodeId := []
  names : Table Key String := .empty
  skipped : List Loc := []
  reserved : List NodeId := []
  regions : Table RegionId Clauses := .empty
  nextKey : Nat := 0
  gotos : Nat := 0
  deriving Repr, Inhabited

def nodeName (n : NodeId) : String := "label" ++ Text.natText n

namespace State

def mark (s : State) (n : NodeId) : Mark := s.marks.getD n .unvisited

def isFree (s : State) (n : NodeId) : Bool := s.mark n == .unvisited && !s.reserved.contains n

def key (s : State) (own : String) : Key := .part s.nextKey own

def bump (s : State) : State := { s with nextKey := s.nextKey + 1 }

def setMark (n : NodeId) (m : Mark) (s : State) : State := { s with marks := s.marks.insert n m }

def skip (locs : List Loc) (s : State) : State := { s with skipped := s.skipped ++ locs }

def reserve (n : Option NodeId) (s : State) : State := { s with reserved := n.toList ++ s.reserved }

def release (n : Option NodeId) (s : State) : State :=
  { s with reserved := n.toList.foldl List.erase s.reserved }

def openRegion (r : RegionId) (c : Clauses) (s : State) : State :=
  { s with regions := s.regions.insert r c }

def want (n : NodeId) (s : State) : State := { s with wanted := Graph.insertOnce n s.wanted }

def place (n : NodeId) (key : Key) (s : State) : State :=
  if s.placed.contains n then s
  else
    { s with
      placed := s.placed.insert n key
      names :=
        if s.wanted.contains n && !s.names.contains key then s.names.insert key (nodeName n)
        else s.names }

def labelOf (n : NodeId) (s : State) : String × State :=
  match s.placed.get? n with
  | some key =>
    match s.names.get? key with
    | some name => (name, s)
    | none => (nodeName n, { s with names := s.names.insert key (nodeName n) })
  | none => (nodeName n, s.want n)

def goto (n : NodeId) (s : State) : Piece × State :=
  let (label, s) := s.labelOf n
  (.goto (.aim n) label, { s with gotos := s.gotos + 1 })

def statement (n : NodeId) (ss : List Stmt) (s : State) : Piece × State :=
  let key := s.key ""
  (.stmts key n (ss.filter fun t => !s.skipped.contains t.loc),
    (s.bump.place n key).setMark n .finished)

def lead (n : NodeId) (ss : List Stmt) (s : State) : List Piece × State :=
  if ss.length ≤ 1 then ([], s)
  else
    let (piece, s) := s.statement n ss.dropLast
    ([piece], s)

def nameScope (scope : Option Key) (s : State) : State :=
  match scope with
  | some key => { s with names := s.names.insert key key.own }
  | none => s

end State

def scopeText (scope : Option Key) : String := (scope.map Key.own).getD ""

/-- What is being written around a place. -/
inductive Scope where
  | loop (shape : LoopShape) (key : Key)
  | switch (node : NodeId) (follow : Option NodeId) (key : Key)
  | guarded (region : RegionId)
  deriving Repr, Inhabited

/-- A sequence ends without a jump at `stop`, and at `fall`, the next arm of a switch. -/
structure Frame where
  scopes : List Scope := []
  stop : Option NodeId := none
  fall : Option NodeId := none
  deriving Repr, Inhabited

abbrev Writing := StateM State

abbrev Emit := Frame → NodeId → Writing (List Piece)

def freshKey (own : String) : Writing Key := modifyGet fun s => (s.key own, s.bump)

/-- How code gets to a node. -/
inductive Route where
  | inline
  | done
  | breakTo (scope : Option Key)
  | continueTo (scope : Option Key)
  | goto
  deriving DecidableEq, Repr

def loopName (header : NodeId) : String := "loop" ++ Text.natText header

def switchName (n : NodeId) : String := "switch" ++ Text.natText n

def jumpOut? (t : NodeId) : Bool → Bool → List Scope → Option Route
  | _, _, [] => none
  | inLoop, inBreakable, .loop shape key :: rest =>
    if t = shape.continueAt then some (.continueTo (if inLoop then some key else none))
    else if shape.follow == some t then some (.breakTo (if inBreakable then some key else none))
    else jumpOut? t true true rest
  | inLoop, inBreakable, .switch _ follow key :: rest =>
    if follow == some t then some (.breakTo (if inBreakable then some key else none))
    else jumpOut? t inLoop true rest
  | inLoop, inBreakable, .guarded _ :: rest => jumpOut? t inLoop inBreakable rest

def isOutside (g : Graph) (scopes : List Scope) (t : NodeId) : Bool :=
  scopes.any fun
    | .guarded r => !g.encloses r (g.node t).region
    | _ => false

def route (p : Plan) (s : State) (f : Frame) (t : NodeId) : Route :=
  if f.stop == some t || f.fall == some t then .done
  else
    (jumpOut? t false false f.scopes).getD
      (if isOutside p.graph f.scopes t || !s.isFree t then .goto else .inline)

def go (p : Plan) (emit : Emit) (f : Frame) : Option NodeId → Writing (List Piece)
  | none => pure []
  | some t => do
    match route p (← get) f t with
    | .inline => emit f t
    | .done => return []
    | .breakTo scope =>
      modify (State.nameScope scope)
      return [.breakTo .none (scopeText scope)]
    | .continueTo scope =>
      modify (State.nameScope scope)
      return [.continueTo .none (scopeText scope)]
    | .goto => return [← modifyGet (State.goto t)]

def goEach (p : Plan) (emit : Emit) : List (Frame × NodeId) → Writing (List (List Piece))
  | [] => pure []
  | (f, t) :: rest => do
    let body ← go p emit f (some t)
    return body :: (← goEach p emit rest)

def goOn (p : Plan) (emit : Emit) (f : Frame) (out : List Piece) (follow : Option NodeId) :
    Writing (List Piece) :=
  match follow with
  | none => return out
  | some t =>
    if Tree.endsInJump out then do
      if route p (← get) f t = .inline then return out ++ (← emit f t) else return out
    else return out ++ (← go p emit f (some t))

def isShort (p : Plan) (s : State) (f : Frame) : Option NodeId → Bool
  | none => false
  | some t =>
    match route p s f t with
    | .breakTo _ | .continueTo _ | .goto => true
    | .inline => (p.graph.node t).kind.isExit && (p.graph.node t).preds.length == 1
    | .done => false

def orient (p : Plan) (s : State) (f : Frame) (node : Node) (follow : Option NodeId) :
    Test × Option NodeId × Option NodeId :=
  let cond := node.test?.getD default
  if follow.isSome && node.onFalse == follow then (cond, node.onTrue, none)
  else if follow.isSome && node.onTrue == follow then (cond.negate, node.onFalse, none)
  else if follow.isNone && isShort p s f node.onTrue then (cond, node.onTrue, node.onFalse)
  else (cond.negate, node.onFalse, node.onTrue)

def branchPieces (key : Key) (n : NodeId) (cond : Test) (meets : Bool) (onTrue onFalse : List Piece) :
    List Piece :=
  if onFalse.isEmpty then [.branch key n cond onTrue none]
  else if onTrue.isEmpty then [.branch key n cond.negate onFalse none]
  else if !meets && Tree.endsInJump onTrue then .branch key n cond onTrue none :: onFalse
  else [.branch key n cond onTrue (some onFalse)]

def branch (p : Plan) (emit : Emit) (f : Frame) (n : NodeId) : Writing (List Piece) := do
  let node := p.graph.node n
  let follow := p.branchFollows.get? n
  let (cond, first, second) := orient p (← get) f node follow
  let lead ← modifyGet (State.lead n node.stmts)
  let key ← freshKey ""
  modify (State.place n key)
  modify (State.setMark n .entered)
  modify (State.reserve follow)
  let inner := if follow.isSome then { f with stop := follow, fall := none } else f
  let onTrue ← go p emit inner first
  let onFalse ← go p emit inner second
  modify (State.release follow)
  modify (State.setMark n .finished)
  goOn p emit f (lead ++ branchPieces key n cond follow.isSome onTrue onFalse) follow

def dropLastContinue (body : List Piece) : List Piece :=
  match body.getLast? with
  | some (.continueTo _ "") => body.dropLast
  | _ => body

def settleShape (p : Plan) (s : State) (shape : LoopShape) : LoopShape :=
  match shape.kind, shape.test with
  | .posttest, some latch => if s.isFree latch then shape else .endless p.graph shape.loop
  | _, _ => shape

def loopTest (g : Graph) (test staysAt : NodeId) : Test :=
  let node := g.node test
  let cond := node.test?.getD default
  if node.onFalse == some staysAt then cond.negate else cond

def loop (p : Plan) (emit : Emit) (f : Frame) (shape : LoopShape) : Writing (List Piece) := do
  let header := shape.loop.header
  let shape := settleShape p (← get) shape
  let key ← freshKey (loopName header)
  modify (State.place header key)
  let scopes := .loop shape key :: f.scopes
  let out ← match shape.kind, shape.test with
    | .pretest, _ => do
      modify (State.setMark header .entered)
      let body ← go p emit { scopes, stop := some header } (some shape.start)
      modify (State.setMark header .finished)
      pure (Tree.loop key .pretest header header (some (loopTest p.graph header shape.start))
        (dropLastContinue body))
    | .posttest, some latch => do
      modify (State.place latch key)
      modify (State.setMark latch .entered)
      let body ← emit { scopes, stop := some latch } header
      modify (State.setMark latch .finished)
      pure (Tree.loop key .posttest latch header (some (loopTest p.graph latch header))
        (dropLastContinue body))
    | _, _ => do
      let body ← emit { scopes } header
      pure (Tree.loop key .endless (-1) header none (dropLastContinue body))
  goOn p emit f [out] shape.follow

/-- An arm before its code is written. -/
structure Arm where
  target : NodeId
  head : ArmHead
  deriving DecidableEq, Repr, Inhabited

def addArm (target : NodeId) (keys : List Int) (isDefault : Bool) : List Arm → List Arm
  | [] => [⟨target, ⟨keys, isDefault⟩⟩]
  | a :: rest =>
    if a.target = target then
      { a with head := ⟨a.head.keys ++ keys, a.head.isDefault || isDefault⟩ } :: rest
    else a :: addArm target keys isDefault rest

def armsOf (g : Graph) (node : Node) (follow : Option NodeId) : List Arm :=
  let arms := node.cases.foldl (fun as c => addArm c.target c.keys false as) []
  let arms :=
    match node.default with
    | some t => if follow == some t then arms else addArm t [] true arms
    | none => arms
  arms.mergeSort fun a b => decide ((g.node a.target).num ≤ (g.node b.target).num)

def armJobs (scopes : List Scope) : List Arm → List (Frame × NodeId)
  | [] => []
  | a :: rest => ({ scopes, fall := rest.head?.map (·.target) }, a.target) :: armJobs scopes rest

def dropLastBreak : List (ArmHead × List Piece) → List (ArmHead × List Piece)
  | [] => []
  | [(h, body)] =>
    match body.getLast? with
    | some (.breakTo _ "") => [(h, body.dropLast)]
    | _ => [(h, body)]
  | a :: rest => a :: dropLastBreak rest

def switchValue (node : Node) : Option Expr :=
  match node.last?.map Stmt.act with
  | some (.switch e) => some e
  | _ => none

def switch (p : Plan) (emit : Emit) (f : Frame) (n : NodeId) : Writing (List Piece) := do
  let node := p.graph.node n
  let follow := (p.switchFollows.get? n).or f.stop
  let lead ← modifyGet (State.lead n node.stmts)
  let key ← freshKey (switchName n)
  modify (State.place n key)
  modify (State.setMark n .entered)
  modify (State.reserve follow)
  let arms := armsOf p.graph node follow
  let bodies ← goEach p emit (armJobs (.switch n follow key :: f.scopes) arms)
  modify (State.release follow)
  modify (State.setMark n .finished)
  let written := dropLastBreak ((arms.map (·.head)).zip bodies)
  goOn p emit f (lead ++ [.switch key n (switchValue node) written]) follow

/-- Handlers with one entry. -/
structure Group where
  entry : NodeId
  types : List String
  catchAll : Bool
  deriving DecidableEq, Repr, Inhabited

def anyThrown : String := "Ljava/lang/Throwable;"

def ownHandlers (g : Graph) (r : RegionId) : List CatchEntry :=
  let handlers (r : Option RegionId) : List CatchEntry :=
    ((r.bind g.region?).map (·.handlers)).getD []
  let own := handlers (some r)
  own.take (own.length - (handlers (g.parentOf r)).length)

def addHandler (h : CatchEntry) : List Group → List Group
  | [] => [⟨h.entry, if h.type = "" then [] else [h.type], h.type = ""⟩]
  | a :: rest =>
    if a.entry = h.entry then
      (if h.type = "" then { a with catchAll := true } else { a with types := a.types ++ [h.type] }) ::
        rest
    else a :: addHandler h rest

def groupHandlers (order : HandlerOrder) (hs : List CatchEntry) : List Group :=
  let groups := (hs.foldl (fun as h => addHandler h as) []).map fun a =>
    if a.catchAll then { a with types := [anyThrown] } else a
  match order with
  | .table => groups
  | .catchAllLast => groups.filter (!·.catchAll) ++ groups.filter (·.catchAll)

def jumpTargets (scopes : List Scope) : List NodeId :=
  scopes.flatMap fun
    | .loop shape _ => shape.continueAt :: shape.loop.header :: shape.follow.toList
    | .switch _ follow _ => follow.toList
    | .guarded _ => []

def followOfRegion (p : Plan) (s : State) (f : Frame) (r : RegionId) (entries : List NodeId) :
    Option NodeId :=
  let jumps := jumpTargets f.scopes
  p.graph.earliest <| (p.regionExits r ++ entries.flatMap p.handlerExits).filter fun n =>
    !jumps.contains n && s.mark n != .finished

def caught? (g : Graph) (entry : NodeId) : Option (VarId × Loc) :=
  match (g.node entry).stmts with
  | ⟨loc, .assign v (.caught _) _⟩ :: _ => some (v, loc)
  | _ => none

def rethrows (n : Node) (v : VarId) : Bool :=
  match n.last?.map Stmt.act with
  | some (.throw (.var w)) => w == v
  | _ => false

/-- Clean-up code that stands both in the only handler, a catch-all that raises the exception
again, and at the only way out: its statements, and the places of the copy. -/
def cleanup? (p : Plan) (r : RegionId) (groups : List Group) (follow : Option NodeId) :
    Option (NodeId × List Stmt × List Loc) :=
  match groups, follow with
  | [a], some out => do
    let entry := p.graph.node a.entry
    let (v, _) ← caught? p.graph a.entry
    let body := (entry.stmts.drop 1).dropLast
    let copy := (p.graph.node out).stmts.take body.length
    let text := Stmt.text p.graph.vars
    if a.catchAll && entry.kind == .throw && !body.isEmpty && rethrows entry v &&
        p.regionExits r == [out] && body.map text == copy.map text then
      some (a.entry, body, copy.map (·.loc))
    else none
  | _, _ => none

def openClause (g : Graph) (a : Group) : Writing CatchHead := do
  match caught? g a.entry with
  | some (v, loc) =>
    if (← get).mark a.entry = .unvisited then
      modify (State.skip [loc])
      return ⟨a.types, some v, a.entry⟩
    else return ⟨a.types, none, a.entry⟩
  | none => return ⟨a.types, none, a.entry⟩

def openClauses (g : Graph) : List Group → Writing (List CatchHead)
  | [] => pure []
  | a :: rest => do
    let head ← openClause g a
    return head :: (← openClauses g rest)

def guarded (p : Plan) (emit : Emit) (f : Frame) (n : NodeId) (r : RegionId) :
    Writing (List Piece) := do
  let groups := groupHandlers p.policy.handlers (ownHandlers p.graph r)
  let follow := followOfRegion p (← get) f r (groups.map (·.entry))
  let key ← freshKey ""
  modify (State.place n key)
  modify (State.reserve follow)
  let inside : Frame := { scopes := .guarded r :: f.scopes, stop := follow }
  match cleanup? p r groups follow with
  | some (entry, code, copy) =>
    modify (State.openRegion r (.cleanup entry))
    modify (State.skip copy)
    modify (State.place entry key)
    modify (State.setMark entry .finished)
    let body ← emit inside n
    modify (State.release follow)
    goOn p emit f [.guarded key r body [] (some [.stmts .none entry code])] follow
  | none =>
    let heads ← openClauses p.graph groups
    modify (State.openRegion r (.catches heads))
    let body ← emit inside n
    let outside : Frame := { scopes := f.scopes, stop := follow }
    let catches ← goEach p emit (heads.map fun h => (outside, h.node))
    modify (State.release follow)
    goOn p emit f [.guarded key r body (heads.zip catches) none] follow

def jumpClauses : List CatchHead → Writing (List (CatchHead × List Piece))
  | [] => pure []
  | h :: rest => do
    let jump ← modifyGet (State.goto h.node)
    return (h, [jump]) :: (← jumpClauses rest)

def repeatClauses (g : Graph) : Clauses → Writing (List (CatchHead × List Piece))
  | .cleanup entry =>
    return [(⟨[anyThrown], (caught? g entry).map Prod.fst, entry⟩,
      [.stmts .none (-1) ((g.node entry).stmts.drop 1)])]
  | .catches heads => jumpClauses heads

def guardedAgain (p : Plan) (emit : Emit) (f : Frame) (n : NodeId) (r : RegionId) (c : Clauses) :
    Writing (List Piece) := do
  let follow := followOfRegion p (← get) f r []
  let key ← freshKey ""
  modify (State.place n key)
  modify (State.reserve follow)
  let catches ← repeatClauses p.graph c
  let body ← emit { scopes := .guarded r :: f.scopes, stop := follow } n
  modify (State.release follow)
  goOn p emit f [.guarded key r body catches none] follow

def activeRegion? (scopes : List Scope) : Option RegionId :=
  scopes.findSome? fun
    | .guarded r => some r
    | _ => none

def pendingRegions (p : Plan) (f : Frame) (n : NodeId) : List RegionId :=
  (p.graph.regionsAround (p.graph.node n).region).takeWhile fun r => activeRegion? f.scopes != some r

def pendingRegion? (p : Plan) (f : Frame) (n : NodeId) : Option RegionId :=
  (pendingRegions p f n).getLast?

def isLoopOpen (scopes : List Scope) (header : NodeId) : Bool :=
  scopes.any fun
    | .loop shape _ => shape.loop.header == header
    | _ => false

def plain (p : Plan) (emit : Emit) (f : Frame) (n : NodeId) : Writing (List Piece) := do
  let node := p.graph.node n
  let piece ← modifyGet (State.statement n node.stmts)
  match node.kind, node.succs with
  | .stmt, [t] => return piece :: (← go p emit f (some t))
  | _, _ => return [piece]

/-- Writes the code from a node on, given how to write what comes later. -/
def step (p : Plan) (emit : Emit) : Emit := fun f n => do
  match pendingRegion? p f n with
  | some r =>
    match (← get).regions.get? r with
    | some c => guardedAgain p emit f n r c
    | none => guarded p emit f n r
  | none =>
    match (p.shape? n).filter fun _ => !isLoopOpen f.scopes n with
    | some shape => loop p emit f shape
    | none =>
      match (p.graph.node n).kind with
      | .cond => branch p emit f n
      | .switch => switch p emit f n
      | _ => plain p emit f n

def emit (p : Plan) : Nat → Emit
  | 0 => fun _ _ => pure []
  | fuel + 1 => step p (emit p fuel)

def depth (p : Plan) : Nat :=
  (p.graph.store.size + p.shapes.length + 1) * (p.graph.regions.size + 3)

def writeRest (p : Plan) (fuel : Nat) : List NodeId → Writing (List Piece)
  | [] => pure []
  | n :: rest => do
    if (← get).mark n = .unvisited then
      modify (State.want n)
      let out ← emit p fuel {} n
      return out ++ (← writeRest p fuel rest)
    else writeRest p fuel rest

def writeAll (p : Plan) (fuel : Nat) (entry : NodeId) : Writing (List Piece) := do
  let out ← emit p fuel {} entry
  return out ++ (← writeRest p fuel p.graph.rpo)

/-- All that is written for a graph, and what is known of its parts in the end. -/
structure Draft where
  body : List Piece
  state : State
  deriving Repr, Inhabited

def draft (p : Plan) (fuel : Nat) (entry : NodeId) : Draft :=
  let (body, state) := (writeAll p fuel entry).run {}
  { body, state }

end RegCode.Recovery

namespace RegCode

/-- A node that was not written whole. -/
structure RecoveryFault where
  node : String
  mark : Recovery.Mark
  deriving DecidableEq, Repr

def RecoveryFault.message (f : RecoveryFault) : String :=
  "node " ++ f.node ++ " left in state " ++ Text.natText f.mark.number ++ " after structuring"

/-- The tree of a graph, with counts of its jumps to labels, of the edges back into loops with
several entries, and of its loops. -/
structure Recovered where
  root : Tree String
  gotos : Nat
  irreducible : Nat
  loops : Nat
  deriving Repr, Inhabited

def Graph.recover (g : Graph) (d : Dominators) (policy : Policy) : Except RecoveryFault Recovered :=
  match g.entry with
  | none => .ok ⟨.block "" [], 0, 0, 0⟩
  | some entry =>
    let p := Plan.ofGraph g d policy
    let w := Recovery.draft p (Recovery.depth p) entry
    match g.rpo.find? fun n => w.state.mark n != .finished with
    | some n => .error ⟨g.name n, w.state.mark n⟩
    | none =>
      .ok
        { root := (Tree.block .none w.body).relabel fun key => w.state.names.getD key ""
          gotos := w.state.gotos
          irreducible := p.loops.irreducible.length
          loops := p.loops.loops.length }

end RegCode
