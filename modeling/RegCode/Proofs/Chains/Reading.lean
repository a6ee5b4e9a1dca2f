import RegCode.Stmt
import Mathlib.Data.List.Basic

/-! What statements read once a value has taken the place of a variable, or once they are folded. -/
namespace RegCode

namespace Expr

variable {v w : VarId} {e : Expr}

theorem eitherSubst {p q r s other value : Prop} :
    (p ∧ other ∨ q ∧ value) ∨ (r ∧ other ∨ s ∧ value) ↔ (p ∨ r) ∧ other ∨ (q ∨ s) ∧ value := by
  rw [or_or_or_comm,or_and_right,or_and_right]

mutual

theorem memSubst : (x : Expr) →
    (w ∈ (subst v e x).vars ↔ w ∈ x.vars ∧ w ≠ v ∨ v ∈ x.vars ∧ w ∈ e.vars)
  | .var u => by
    by_cases same : u = v
    · subst same
      simp only [subst,vars,if_pos,List.mem_singleton]
      tauto
    · simp only [subst,vars,if_neg same,List.mem_singleton]
      constructor
      · rintro rfl
        exact .inl ⟨rfl,same⟩
      · rintro (⟨here,-⟩ | ⟨here,-⟩)
        · exact here
        · exact absurd here.symm same
  | .const _ _ | .str _ | .classRef _ | .caught _ | .staticField _ => by simp [subst,vars]
  | .binary _ l r _ | .compare l r _ _ | .test _ l r | .element l r _ => by
    simp only [subst,vars,List.mem_append,memSubst l,memSubst r]
    exact eitherSubst
  | .unary _ x _ | .cast _ x _ | .testZero _ x | .instanceOf x _ | .field _ x | .length x
  | .newArray _ x => by simpa only [subst,vars] using memSubst x
  | .newObject _ xs _ | .filled _ xs | .call _ _ xs => by
    simpa only [subst,vars] using memSubstAll xs
  | .callOn _ _ r xs => by
    simp only [subst,vars,List.mem_append,memSubst r,memSubstAll xs]
    exact eitherSubst

theorem memSubstAll : (xs : List Expr) →
    (w ∈ varsAll (substAll v e xs) ↔ w ∈ varsAll xs ∧ w ≠ v ∨ v ∈ varsAll xs ∧ w ∈ e.vars)
  | [] => by simp [substAll,varsAll]
  | x :: xs => by
    simp only [substAll,varsAll,List.mem_append,memSubst x,memSubstAll xs]
    exact eitherSubst

end

theorem memFoldBinary (op : Arith) (type : String) (l r : Folded) :
    w ∈ (foldBinary op type l r).expr.vars ↔ w ∈ l.expr.vars ∨ w ∈ r.expr.vars := by
  unfold foldBinary
  dsimp only
  split
  · rename_i a b left right
    rw [left,right]
    split
    · split <;> simp [vars]
    · simp [vars]
  · simp [vars]

theorem memFoldUnary (op : Arith) (type : String) (x : Folded) :
    w ∈ (foldUnary op type x).expr.vars ↔ w ∈ x.expr.vars := by
  unfold foldUnary
  split
  · rename_i constant
    rw [constant]
    split <;> simp [vars]
  · simp [vars]

theorem memFoldCast (target : String) (check : Bool) (x : Folded) :
    w ∈ (foldCast target check x).expr.vars ↔ w ∈ x.expr.vars := by
  unfold foldCast
  split
  · rename_i constant
    rw [constant]
    split <;> simp [vars]
  · simp [vars]

theorem memFoldTestZero (op : Cond) (x : Folded) :
    w ∈ (foldTestZero op x).expr.vars ↔ w ∈ x.expr.vars := by
  unfold foldTestZero
  split
  · rename_i compared
    rw [compared]
    simp [vars]
  · simp [vars]

mutual

theorem memFold : (x : Expr) → (w ∈ x.fold.expr.vars ↔ w ∈ x.vars)
  | .binary _ l r _ => by
    simp only [fold,memFoldBinary,vars,List.mem_append,memFold l,memFold r]
  | .unary _ x _ => by simp only [fold,memFoldUnary,vars,memFold x]
  | .cast _ x _ => by simp only [fold,memFoldCast,vars,memFold x]
  | .test _ l r => by simp only [fold,vars,List.mem_append,memFold l,memFold r]
  | .testZero _ x => by simp only [fold,memFoldTestZero,vars,memFold x]
  | .call _ _ xs => by simp only [fold,vars,memFoldAll xs]
  | .callOn _ _ r xs => by simp only [fold,vars,List.mem_append,memFoldAll xs]
  | .var _ | .const _ _ | .str _ | .classRef _ | .caught _ | .staticField _ | .compare _ _ _ _
  | .element _ _ _ | .instanceOf _ _ | .field _ _ | .length _ | .newArray _ _ | .newObject _ _ _
  | .filled _ _ => by simp only [fold]

theorem memFoldAll : (xs : List Expr) → (w ∈ varsAll (foldAll xs).1 ↔ w ∈ varsAll xs)
  | [] => by simp only [foldAll]
  | x :: xs => by simp only [foldAll,varsAll,List.mem_append,memFold x,memFoldAll xs]

end

end Expr

namespace Test

theorem ofToExpr (c : Test) : ofExpr? c.toExpr = some c := by
  obtain ⟨op,left,right⟩ := c
  cases right <;> rfl

theorem substToExpr (c : Test) (v : VarId) (e : Expr) :
    Expr.subst v e c.toExpr = (c.subst v e).toExpr := by
  obtain ⟨op,left,right⟩ := c
  cases right <;> simp [toExpr,subst,Expr.subst]

theorem foldToExpr (c : Test) : ∃ d : Test, c.toExpr.fold.expr = d.toExpr := by
  obtain ⟨op,left,right⟩ := c
  cases right with
  | some r => exact ⟨⟨op,left.fold.expr,some r.fold.expr⟩,by simp only [toExpr,Expr.fold]⟩
  | none =>
    simp only [toExpr,Expr.fold,Expr.foldTestZero]
    split
    · rename_i a b _ _ _
      exact ⟨⟨op,a,some b⟩,rfl⟩
    · exact ⟨⟨op,left.fold.expr,none⟩,rfl⟩

theorem memFold {w : VarId} (c : Test) : w ∈ c.fold.1.toExpr.vars ↔ w ∈ c.toExpr.vars := by
  obtain ⟨d,same⟩ := c.foldToExpr
  rw [fold,same,ofToExpr,Option.getD_some,← same,Expr.memFold]

end Test

namespace Action

variable {v w : VarId} {e : Expr}

theorem memReplace (a : Action) :
    w ∈ (a.replace v e).uses ↔ w ∈ a.uses ∧ w ≠ v ∨ v ∈ a.uses ∧ w ∈ e.vars := by
  have all := @Expr.memSubstAll v w e
  cases a with
  | branch c =>
    have kept : (Action.branch c).replace v e = .branch (c.subst v e) := by
      simp only [replace,mapExprs,Test.substToExpr,Test.ofToExpr,Option.getD_some]
    rw [kept,uses,exprs,← Test.substToExpr]
    exact all [c.toExpr]
  | storeField r o x => cases o with
    | none => exact all [x]
    | some o => exact all [o,x]
  | ret x => cases x with
    | none => exact all []
    | some x => exact all [x]
  | declare u => exact all []
  | assign u x d => exact all [x]
  | invoke x => exact all [x]
  | storeElement a i x => exact all [a,i,x]
  | fill a values => exact all [a]
  | monitor enter o => exact all [o]
  | throw x => exact all [x]
  | switch x => exact all [x]

theorem memFold (a : Action) : w ∈ a.fold.1.uses ↔ w ∈ a.uses := by
  cases a with
  | ret x => cases x <;> simp [fold,uses,exprs,Expr.varsAll,Expr.memFold]
  | branch c => simp [fold,uses,exprs,Expr.varsAll,Test.memFold]
  | storeField r o x => cases o <;> simp [fold,uses,exprs,Expr.varsAll,Expr.memFold]
  | _ => simp [fold,uses,exprs,Expr.varsAll,Expr.memFold]

theorem usesWithoutResult (a : Action) : a.withoutResult.uses = a.uses := by cases a <;> rfl

end Action

end RegCode
