import RegCode.Expr.Fold

/-! Statements. Each has a location of its own in the method; only an assignment defines a
variable. -/
namespace RegCode

inductive Action where
  | assign (v : VarId) (value : Expr) (declares : Bool)
  | declare (v : VarId)
  | invoke (call : Expr)
  | storeField (ref : FieldRef) (object : Option Expr) (value : Expr)
  | storeElement (array index value : Expr)
  | fill (array : Expr) (values : List Int)
  | monitor (enter : Bool) (object : Expr)
  | ret (value : Option Expr)
  | throw (value : Expr)
  | branch (cond : Test)
  | switch (value : Expr)
  deriving Repr, Inhabited, BEq

namespace Action

def def? : Action → Option VarId
  | assign v _ _ => some v
  | _ => none

def exprs : Action → List Expr
  | assign _ e _ => [e]
  | declare _ => []
  | invoke e => [e]
  | storeField _ o e => o.toList ++ [e]
  | storeElement a i e => [a, i, e]
  | fill a _ => [a]
  | monitor _ o => [o]
  | ret e => e.toList
  | throw e => [e]
  | branch c => [c.toExpr]
  | switch e => [e]

def slots : Action → Nat
  | declare _ => 0
  | storeField _ _ _ => 2
  | storeElement _ _ _ => 3
  | _ => 1

def uses (a : Action) : List VarId := Expr.varsAll a.exprs

def mapExprs (f : Expr → Expr) : Action → Action
  | assign v e d => assign v (f e) d
  | declare v => declare v
  | invoke e => invoke (f e)
  | storeField r o e => storeField r (o.map f) (f e)
  | storeElement a i e => storeElement (f a) (f i) (f e)
  | fill a vs => fill (f a) vs
  | monitor b o => monitor b (f o)
  | ret e => ret (e.map f)
  | throw e => throw (f e)
  | branch c => branch ((Test.ofExpr? (f c.toExpr)).getD c)
  | switch e => switch (f e)

def replace (v : VarId) (e : Expr) (a : Action) : Action := a.mapExprs (Expr.subst v e)

def renameDef (v : VarId) : Action → Action
  | assign _ e d => assign v e d
  | a => a

def withoutResult : Action → Action
  | assign _ e _ => invoke e
  | a => a

def declaring : Action → Action
  | assign v e _ => assign v e true
  | a => a

def hasEffects : Action → Bool
  | assign _ e _ => e.hasEffects
  | declare _ => false
  | _ => true

def canThrow : Action → Bool
  | assign _ e _ => e.canThrow
  | declare _ => false
  | invoke e => e.canThrow
  | ret (some e) => e.canThrow
  | ret none => false
  | branch c => c.toExpr.canThrow
  | switch e => e.canThrow
  | _ => true

def readsMemory (a : Action) : Bool := Expr.readsMemoryAny a.exprs

def declaredType (t : VarTable) (v : VarId) (value : Option Expr) : String :=
  let own := (t.get v).type
  if own ≠ "" then own
  else
    match value.map (Expr.type t) with
    | none | some "" => "Ljava/lang/Object;"
    | some type => type

def text (t : VarTable) : Action → String
  | assign v e declares =>
    (if declares then Descriptor.sourceName (declaredType t v (some e)) ++ " " else "") ++
      t.text v ++ " = " ++ e.text t
  | declare v => Descriptor.sourceName (declaredType t v none) ++ " " ++ t.text v
  | invoke e => e.text t
  | storeField ref (some o) e => (Expr.field ref o).text t ++ " = " ++ e.text t
  | storeField ref none e => (Expr.staticField ref).text t ++ " = " ++ e.text t
  | storeElement a i e =>
    Expr.parenIf a.isCompound (a.text t) ++ "[" ++ i.text t ++ "] = " ++ e.text t
  | fill a values =>
    a.text t ++ " = \x7b" ++ ", ".intercalate (values.map Text.intText) ++ "\x7d"
  | monitor enter o => (if enter then "monitor-enter(" else "monitor-exit(") ++ o.text t ++ ")"
  | ret none => "return"
  | ret (some e) => "return " ++ e.text t
  | throw e => "throw " ++ e.text t
  | branch c => "if (" ++ c.text t ++ ")"
  | switch e => "switch (" ++ e.text t ++ ")"

def fold : Action → Action × Bool
  | assign v e d => let x := e.fold; (assign v x.expr d, x.changed)
  | ret (some e) => let x := e.fold; (ret (some x.expr), x.changed)
  | branch c => let (c, changed) := c.fold; (branch c, changed)
  | switch e => let x := e.fold; (switch x.expr, x.changed)
  | storeField r o e => let x := e.fold; (storeField r o x.expr, x.changed)
  | storeElement a i e =>
    let i := i.fold
    let x := e.fold
    (storeElement a i.expr x.expr, i.changed || x.changed)
  | invoke e => let x := e.fold; (invoke x.expr, x.changed)
  | a => (a, false)

def isMove : Action → Bool
  | assign _ (.var _) _ => true
  | _ => false

end Action

/-- A location of a statement in its method. -/
abbrev Loc := Int

structure Stmt where
  loc : Loc
  act : Action
  deriving Repr, Inhabited, BEq

namespace Stmt

def def? (s : Stmt) : Option VarId := s.act.def?
def uses (s : Stmt) : List VarId := s.act.uses
def hasEffects (s : Stmt) : Bool := s.act.hasEffects
def canThrow (s : Stmt) : Bool := s.act.canThrow
def readsMemory (s : Stmt) : Bool := s.act.readsMemory
def text (t : VarTable) (s : Stmt) : String := s.act.text t

def replace (v : VarId) (e : Expr) (s : Stmt) : Stmt := { s with act := s.act.replace v e }

def renameUses (old new : VarId) (s : Stmt) : Stmt := s.replace old (.var new)

def renameDef (v : VarId) (s : Stmt) : Stmt := { s with act := s.act.renameDef v }

def withoutResult (s : Stmt) : Stmt := { s with act := s.act.withoutResult }

def declaring (s : Stmt) : Stmt := { s with act := s.act.declaring }

def fold (s : Stmt) : Stmt × Bool :=
  let (act, changed) := s.act.fold
  ({ s with act }, changed)

def mentions (s : Stmt) (v : VarId) : Bool := s.def? == some v || s.uses.contains v

end Stmt

end RegCode
