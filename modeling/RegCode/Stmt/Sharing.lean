import RegCode.Stmt.Constructor

/-! Expressions and statements with parts that stand in several places at once. Substituting puts one and
the same part in every place of the variable, so that folding it in one place folds it in all of them,
and a part that is met twice is folded twice. -/
namespace RegCode

namespace Expr

mutual

/-- Number of variables, constants and operations. -/
def nodes : Expr → Nat
  | var _ | const _ _ | str _ | classRef _ | caught _ | staticField _ => 1
  | binary _ l r _ => l.nodes + r.nodes + 1
  | unary _ e _ => e.nodes + 1
  | cast _ e _ => e.nodes + 1
  | compare l r _ _ => l.nodes + r.nodes + 1
  | test _ l r => l.nodes + r.nodes + 1
  | testZero _ l => l.nodes + 1
  | instanceOf e _ => e.nodes + 1
  | field _ o => o.nodes + 1
  | element a i _ => a.nodes + i.nodes + 1
  | length a => a.nodes + 1
  | newObject _ args _ => nodesAll args + 1
  | newArray _ n => n.nodes + 1
  | filled _ es => nodesAll es + 1
  | call _ _ args => nodesAll args + 1
  | callOn _ _ r args => r.nodes + nodesAll args + 1

def nodesAll : List Expr → Nat
  | [] => 0
  | e :: es => e.nodes + nodesAll es

end

end Expr

/-- Parts of an expression that has `base` variables of its own: in it, and in each other, part `i`
is written as variable `base + i`. No part contains itself. -/
structure Parts where
  base : VarId
  all : Array Expr := #[]
  deriving Repr, Inhabited, BEq

namespace Parts

def size (p : Parts) : Nat := p.all.size

def get? (p : Parts) (v : VarId) : Option Expr :=
  if v < p.base then none else p.all[v - p.base]?

def update (p : Parts) (v : VarId) (e : Expr) : Parts :=
  { p with all := p.all.setIfInBounds (v - p.base) e }

def share (p : Parts) (e : Expr) : Parts × Expr :=
  if e.isLeaf then (p, e) else ({ p with all := p.all.push e }, .var (p.base + p.size))

def expandOnce (p : Parts) (e : Expr) : Expr :=
  (List.range p.size).foldl (fun e i => Expr.subst (p.base + i) (p.all[i]?.getD default) e) e

def expand (p : Parts) (e : Expr) : Expr :=
  (List.range p.size).foldl (fun e _ => p.expandOnce e) e

def subst (v : VarId) (e : Expr) (p : Parts) : Parts :=
  { p with all := p.all.map (Expr.subst v e) }

def bind (v : VarId) (e : Expr) (p : Parts) : Parts × Expr :=
  let place := (p.share e).2
  (((p.subst v place).share e).1, place)

def comparison? (p : Parts) (v : VarId) : Option (Parts × Expr × Expr) :=
  match p.get? v with
  | some (.compare a b type bias) =>
    let (p, a) := p.share a
    let (p, b) := p.share b
    some (p.update v (.compare a b type bias), a, b)
  | _ => none

/-- What folding makes of an expression: the operation itself with its operands folded, and what
stands in its place. The two differ when the operation has become a constant. -/
structure Visit where
  kept : Expr
  place : Expr.Folded
  deriving Repr, Inhabited

def Visit.same (x : Expr.Folded) : Visit := ⟨x.expr, x⟩

def testZero (op : Cond) (x : Expr.Folded) : StateM Parts Visit := do
  match x.expr with
  | .var v =>
    match (← get).comparison? v with
    | some (p, a, b) =>
      set p
      return .same ⟨.test op a b, true⟩
    | none => return .same (Expr.foldTestZero op x)
  | _ => return .same (Expr.foldTestZero op x)

mutual

/-- Folds an expression; `visit` folds what a variable stands for. -/
def foldBy (visit : VarId → StateM Parts Expr.Folded) : Expr → StateM Parts Visit
  | .var v => return .same (← visit v)
  | .binary op l r type => do
    let l ← foldBy visit l
    let r ← foldBy visit r
    return ⟨.binary op l.place.expr r.place.expr type, Expr.foldBinary op type l.place r.place⟩
  | .unary op e type => do
    let x ← foldBy visit e
    return ⟨.unary op x.place.expr type, Expr.foldUnary op type x.place⟩
  | .cast target e check => do
    let x ← foldBy visit e
    return ⟨.cast target x.place.expr check, Expr.foldCast target check x.place⟩
  | .test op l r => do
    let l ← foldBy visit l
    let r ← foldBy visit r
    return .same ⟨.test op l.place.expr r.place.expr, l.place.changed || r.place.changed⟩
  | .testZero op l => do
    let x ← foldBy visit l
    testZero op x.place
  | .call k m args => do
    let (args, changed) ← foldAllBy visit args
    return .same ⟨.call k m args, changed⟩
  | .callOn k m r args => do
    let (args, changed) ← foldAllBy visit args
    return .same ⟨.callOn k m r args, changed⟩
  | e => return .same ⟨e, false⟩

def foldAllBy (visit : VarId → StateM Parts Expr.Folded) :
    List Expr → StateM Parts (List Expr × Bool)
  | [] => return ([], false)
  | e :: es => do
    let x ← foldBy visit e
    let (xs, changed) ← foldAllBy visit es
    return (x.place.expr :: xs, x.place.changed || changed)

end

def visit : Nat → VarId → StateM Parts Expr.Folded
  | 0, v => return ⟨.var v, false⟩
  | depth + 1, v => do
    match (← get).get? v with
    | none => return ⟨.var v, false⟩
    | some e =>
      let x ← foldBy (visit depth) e
      modify (·.update v x.kept)
      return if x.place.expr.isConstant then x.place else ⟨.var v, x.place.changed⟩

def fold (e : Expr) (p : Parts) : Expr.Folded × Parts :=
  let depth := p.all.foldl (fun n e => n + e.nodes) e.nodes
  let (x, p) := (foldBy (visit depth) e).run p
  (x.place, p)

end Parts

/-- An expression together with its parts. -/
structure SharedExpr where
  body : Expr
  parts : Parts
  deriving Repr, Inhabited, BEq

namespace SharedExpr

def ofExpr (base : VarId) (e : Expr) : SharedExpr := ⟨e, { base }⟩

def toExpr (s : SharedExpr) : Expr := s.parts.expand s.body

def subst (v : VarId) (e : Expr) (s : SharedExpr) : SharedExpr :=
  if s.body == .var v then { s with body := e }
  else
    let (parts, place) := s.parts.bind v e
    ⟨Expr.subst v place s.body, parts⟩

def fold (s : SharedExpr) : SharedExpr × Bool :=
  let (x, parts) := s.parts.fold s.body
  (⟨x.expr, parts⟩, x.changed)

def negate? (s : SharedExpr) : Option SharedExpr :=
  (Test.ofExpr? s.body).map fun c => { s with body := c.negate.toExpr }

end SharedExpr

namespace Action

/-- Folds the values that the action computes with, and the parts that they meet. -/
def foldIn (p : Parts) : Action → (Action × Bool) × Parts
  | assign v e d => let (x, p) := p.fold e; ((assign v x.expr d, x.changed), p)
  | ret (some e) => let (x, p) := p.fold e; ((ret (some x.expr), x.changed), p)
  | branch c =>
    let (x, p) := p.fold c.toExpr
    ((branch ((Test.ofExpr? x.expr).getD c), x.changed), p)
  | switch e => let (x, p) := p.fold e; ((switch x.expr, x.changed), p)
  | storeField r o e => let (x, p) := p.fold e; ((storeField r o x.expr, x.changed), p)
  | storeElement a i e =>
    let (i, p) := p.fold i
    let (x, p) := p.fold e
    ((storeElement a i.expr x.expr, i.changed || x.changed), p)
  | invoke e => let (x, p) := p.fold e; ((invoke x.expr, x.changed), p)
  | a => ((a, false), p)

end Action

/-- A statement together with the parts of its expressions. -/
structure SharedStmt where
  body : Stmt
  parts : Parts
  deriving Repr, Inhabited, BEq

namespace SharedStmt

def ofStmt (base : VarId) (s : Stmt) : SharedStmt := ⟨s, { base }⟩

def toStmt (s : SharedStmt) : Stmt :=
  { s.body with act := s.body.act.mapExprs s.parts.expand }

def replace (v : VarId) (e : Expr) (s : SharedStmt) : SharedStmt :=
  let (parts, place) := s.parts.bind v e
  ⟨s.body.replace v place, parts⟩

def renameDef (v : VarId) (s : SharedStmt) : SharedStmt := { s with body := s.body.renameDef v }

def fold (s : SharedStmt) : SharedStmt × Bool :=
  let ((act, changed), parts) := s.body.act.foldIn s.parts
  (⟨{ s.body with act }, parts⟩, changed)

def foldConstructors (base : VarId) (ss : List SharedStmt) : List SharedStmt :=
  let numbered := ss.zipIdx.map fun (s, i) => { s.toStmt with loc := i + 1 }
  (Stmt.foldConstructors numbered).map fun s =>
    match s.loc with
    | .ofNat (i + 1) => ss[i]?.getD (ofStmt base s)
    | _ => ofStmt base s

end SharedStmt

end RegCode
