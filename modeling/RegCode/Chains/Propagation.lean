import RegCode.Chains

/-! The value of a definition takes the place of its use, when it means the same there. -/
namespace RegCode

structure PropagateOptions where
  fold : Bool := true
  rounds : Int := 0
  deriving DecidableEq, Repr

namespace Analysed

def isPinned : Expr → Bool
  | .caught _ => true
  | .newObject _ _ init => !init
  | _ => false

def canMove (stmts : List Stmt) (d u : Loc) (value : Expr) : Bool :=
  let fromDef := stmts.dropWhile (·.loc != d)
  let afterDef := fromDef.drop 1
  if fromDef.isEmpty || !afterDef.any (·.loc == u) then false
  else
    let between := afterDef.takeWhile (·.loc != u)
    if value.hasEffects then between.isEmpty
    else between.all fun s => !(s.hasEffects || (value.canThrow && s.canThrow))

def actsEarly : Expr → Bool
  | .call k m args => (Expr.call k m args).nestedEffects
  | .callOn k m r args => (Expr.callOn k m r args).nestedEffects
  | .newObject _ args _ => Expr.hasEffectsAny args
  | e => e.hasEffects

def nestedEffects (s : Stmt) : Bool := s.act.exprs.any actsEarly

/-- The definition and value that may take the place of a variable in the statement at `u`. -/
def candidate? (a : Analysed) (u : Loc) (s : Stmt) (v : VarId) : Option (Loc × Expr) := do
  if let .declare _ := s.act then none
  let d ← match a.chains.defsOfUse v u with
    | [d] => if d = paramLoc then none else some d
    | _ => none
  let (w, value) ← a.assignment? d
  if w ≠ v ∨ d = u ∨ isPinned value then none
  else if !value.isConstant && (a.chains.uses v d).length > 1 then none
  else if !value.isLeaf && s.uses.count v > 1 then none
  else if value.vars.eraseDups.any fun x =>
      a.chains.defsOfUse x d != a.chains.defsAt a.graph x u then none
  else
    let i ← a.chains.home.get? d
    let j ← a.chains.home.get? u
    if (a.graph.node i).region ≠ (a.graph.node j).region then none
    else if value.hasEffects || value.readsMemory || value.canThrow then
      if i = j && canMove (a.graph.node i).stmts d u value && !nestedEffects s then some (d, value)
      else none
    else some (d, value)

def inheritUses (c : Chains) (d u : Loc) (x : VarId) : Chains :=
  let source := c.defsOfUse x d
  let c := { c with useDef := c.useDef.insert (x, u) (Locs.union (c.defsOfUse x u) source) }
  source.foldl (fun c e => c.addUse x u e) c

def substitute (a : Analysed) (u : Loc) (v : VarId) (d : Loc) (value : Expr) : Analysed :=
  let a := a.modifyStmt u (Stmt.replace v value)
  let c := value.vars.eraseDups.foldl (fun c x => inheritUses c d u x) a.chains
  let left := Locs.erase u (c.uses v d)
  let c := { c with useDef := c.useDef.erase (v, u), defUse := c.defUse.insert (v, d) left }
  let a := { a with chains := c }
  if left.isEmpty then (a.removeStmt d).1 else a

def propagateVar (o : PropagateOptions) (u : Loc) (acc : Analysed × Nat) (v : VarId) : Analysed × Nat :=
  let (a, n) := acc
  match a.stmt? u with
  | none => (a, n)
  | some s =>
    match a.candidate? u s v with
    | none => (a, n)
    | some (d, value) =>
      let a := a.substitute u v d value
      (if o.fold then a.modifyStmt u fun s => s.fold.1 else a, n + 1)

def propagateStmt (o : PropagateOptions) (i : NodeId) (acc : Analysed × Nat) (u : Loc) :
    Analysed × Nat :=
  match acc.1.stmt? u with
  | none => acc
  | some s =>
    if (acc.1.graph.node i).stmt? u == some s then s.uses.eraseDups.foldl (propagateVar o u) acc
    else acc

def propagateNode (o : PropagateOptions) (acc : Analysed × Nat) (i : NodeId) : Analysed × Nat :=
  ((acc.1.graph.node i).stmts.map (·.loc)).foldl (propagateStmt o i) acc

def propagateRound (o : PropagateOptions) (a : Analysed) : Analysed × Nat :=
  a.graph.rpo.foldl (propagateNode o) (a, 0)

def propagateRounds (o : PropagateOptions) : Nat → Analysed → Nat → Analysed × Nat
  | 0, a, total => (a, total)
  | fuel + 1, a, total =>
    let (a, n) := a.propagateRound o
    if n = 0 then (a, total) else propagateRounds o fuel a (total + n)

def useCount (a : Analysed) : Nat :=
  sumOf (fun i => sumOf (fun s => s.uses.length) (a.graph.node i).stmts) a.graph.rpo

def propagate (o : PropagateOptions) (a : Analysed) : Analysed × Nat :=
  let bound := a.useCount + 1
  a.propagateRounds o (if o.rounds ≤ 0 then bound else min bound o.rounds.toNat) 0

end Analysed

end RegCode
