import RegCode.Stmt

/-! An allocation and the constructor call that completes it become one expression, when nothing in
between looks at the object. -/
namespace RegCode.Stmt

def constructorCall? (s : Stmt) : Option (VarId × String × List Expr) :=
  match s.act with
  | .invoke (.callOn .direct m (.var v) args) =>
    if m.name = "<init>" then some (v, m.owner, args) else none
  | _ => none

def isAllocation (owner : String) : Expr → Bool
  | .newObject ref _ false => ref == owner
  | _ => false

/-- Takes the allocation out of the statements before the call, the nearest first. A place that an
earlier call has emptied is `none`. -/
def takeAllocation? (v : VarId) (owner : String) (args : List Expr) :
    List (Option Stmt) → Option (List (Option Stmt))
  | [] => none
  | p :: rest =>
    match p.map Stmt.act with
    | some (.assign w value declares) =>
      if w = v then
        if isAllocation owner value then some (none :: rest) else none
      else if (Action.assign w value declares).uses.contains v || (Expr.varsAll args).contains v then
        none
      else (takeAllocation? v owner args rest).map (p :: ·)
    | act =>
      if act.any (·.uses.contains v) || (Expr.varsAll args).contains v then none
      else (takeAllocation? v owner args rest).map (p :: ·)

def foldConstructorsFrom : List (Option Stmt) → List Stmt → List (Option Stmt)
  | done, [] => done
  | done, s :: rest =>
    match s.constructorCall? with
    | none => foldConstructorsFrom (some s :: done) rest
    | some (v, owner, args) =>
      match takeAllocation? v owner args done with
      | some done =>
        foldConstructorsFrom (some ⟨0, .assign v (.newObject owner args true) false⟩ :: done) rest
      | none => foldConstructorsFrom (some s :: done) rest

def foldConstructors (ss : List Stmt) : List Stmt :=
  (foldConstructorsFrom [] ss).reverse.filterMap id

end RegCode.Stmt
