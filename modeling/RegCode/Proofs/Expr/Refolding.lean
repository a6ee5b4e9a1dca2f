import RegCode.Proofs.Chains.Reading

/-! Folding what has been folded. A test of a comparison puts the operands of the comparison, which are not folded
themselves, where they can be folded; nothing else is left for a second time. -/
namespace RegCode

namespace Expr

theorem foldBinaryCases (op : Arith) (type : String) (l r : Expr) :
    (∀ c c', foldBinary op type ⟨l,c⟩ ⟨r,c'⟩ = ⟨binary op l r type,c || c'⟩) ∨
      ∃ t a t' b n, l = const t a ∧ r = const t' b ∧ isIntegral type = true ∧ op.eval? type a b = some n ∧
        ∀ c c', foldBinary op type ⟨l,c⟩ ⟨r,c'⟩ = ⟨const type (truncateTo type n),true⟩ := by
  unfold foldBinary
  dsimp only
  split
  · rename_i t a t' b
    split
    · split
      · rename_i integral _ n gives
        exact .inr ⟨t,a,t',b,n,rfl,rfl,integral,gives,fun _ _ => rfl⟩
      · exact .inl fun _ _ => rfl
    · exact .inl fun _ _ => rfl
  · exact .inl fun _ _ => rfl

theorem foldUnaryCases (op : Arith) (type : String) (e : Expr) :
    (∀ c, foldUnary op type ⟨e,c⟩ = ⟨unary op e type,c⟩) ∨ ∃ t a, e = const t a ∧ isIntegral type = true ∧
      ∀ c, foldUnary op type ⟨e,c⟩ =
        ⟨const type (truncateTo type (if op = .neg then Text.wrap64 (-a) else -a - 1)),true⟩ := by
  unfold foldUnary
  dsimp only
  split
  · rename_i t a
    split
    · rename_i integral
      exact .inr ⟨t,a,rfl,(Bool.and_eq_true _ _ ▸ integral).1,fun _ => rfl⟩
    · exact .inl fun _ => rfl
  · exact .inl fun _ => rfl

theorem foldCastCases (target : String) (check : Bool) (e : Expr) :
    (∀ c, foldCast target check ⟨e,c⟩ = ⟨cast target e check,c⟩) ∨ ∃ t n, e = const t n ∧ check = false ∧
      isIntegral t = true ∧ isIntegral target = true ∧
        ∀ c, foldCast target check ⟨e,c⟩ = ⟨const target (truncateTo target n),true⟩ := by
  unfold foldCast
  dsimp only
  split
  · rename_i t n
    split
    · rename_i whole
      simp only [Bool.and_eq_true,Bool.not_eq_true'] at whole
      exact .inr ⟨t,n,rfl,whole.1.1,whole.1.2,whole.2,fun _ => rfl⟩
    · exact .inl fun _ => rfl
  · exact .inl fun _ => rfl

theorem foldTestZeroCases (op : Cond) (e : Expr) :
    (∀ c, foldTestZero op ⟨e,c⟩ = ⟨testZero op e,c⟩) ∨ ∃ a b type bias, e = compare a b type bias ∧
      ∀ c, foldTestZero op ⟨e,c⟩ = ⟨test op a b,true⟩ := by
  unfold foldTestZero
  dsimp only
  split
  · rename_i a b type bias
    exact .inr ⟨a,b,type,bias,rfl,fun _ => rfl⟩
  · exact .inl fun _ => rfl

theorem foldCompare {e a b : Expr} {type bias : String} (folded : e.fold.expr = compare a b type bias) :
    e = compare a b type bias := by
  cases e with
  | compare => exact folded
  | binary op l r t =>
    rw [fold] at folded
    rcases foldBinaryCases op t l.fold.expr r.fold.expr with same | ⟨_,_,_,_,_,-,-,-,-,same⟩ <;>
      rw [show foldBinary op t l.fold r.fold = _ from same _ _] at folded <;> contradiction
  | unary op e t =>
    rw [fold] at folded
    rcases foldUnaryCases op t e.fold.expr with same | ⟨_,_,-,-,same⟩ <;>
      rw [show foldUnary op t e.fold = _ from same _] at folded <;> contradiction
  | cast target e check =>
    rw [fold] at folded
    rcases foldCastCases target check e.fold.expr with same | ⟨_,_,-,-,-,-,same⟩ <;>
      rw [show foldCast target check e.fold = _ from same _] at folded <;> contradiction
  | testZero op e =>
    rw [fold] at folded
    rcases foldTestZeroCases op e.fold.expr with same | ⟨_,_,_,_,-,same⟩ <;>
      rw [show foldTestZero op e.fold = _ from same _] at folded <;> contradiction
  | _ => simp [fold] at folded

mutual

def lifts : Expr → Bool
  | binary _ l r _ => l.lifts || r.lifts
  | unary _ e _ => e.lifts
  | cast _ e _ => e.lifts
  | test _ l r => l.lifts || r.lifts
  | testZero _ (compare a b _ _) => a.fold.changed || b.fold.changed
  | testZero _ e => e.lifts
  | call _ _ args => liftsAny args
  | callOn _ _ _ args => liftsAny args
  | _ => false

def liftsAny : List Expr → Bool
  | [] => false
  | e :: es => e.lifts || liftsAny es

end

mutual

theorem foldSame : (e : Expr) → e.fold.changed = false → e.fold.expr = e
  | .binary op l r type, still => by
    rw [fold] at still ⊢
    rcases foldBinaryCases op type l.fold.expr r.fold.expr with same | ⟨_,_,_,_,_,-,-,-,-,same⟩
    · rw [show foldBinary op type l.fold r.fold = _ from same _ _] at still ⊢
      rw [Bool.or_eq_false_iff] at still
      rw [foldSame l still.1,foldSame r still.2]
    · rw [show foldBinary op type l.fold r.fold = _ from same _ _] at still
      contradiction
  | .unary op e type, still => by
    rw [fold] at still ⊢
    rcases foldUnaryCases op type e.fold.expr with same | ⟨_,_,-,-,same⟩
    · rw [show foldUnary op type e.fold = _ from same _] at still ⊢
      rw [foldSame e still]
    · rw [show foldUnary op type e.fold = _ from same _] at still
      contradiction
  | .cast target e check, still => by
    rw [fold] at still ⊢
    rcases foldCastCases target check e.fold.expr with same | ⟨_,_,-,-,-,-,same⟩
    · rw [show foldCast target check e.fold = _ from same _] at still ⊢
      rw [foldSame e still]
    · rw [show foldCast target check e.fold = _ from same _] at still
      contradiction
  | .test op l r, still => by
    simp only [fold,Bool.or_eq_false_iff] at still ⊢
    rw [foldSame l still.1,foldSame r still.2]
  | .testZero op e, still => by
    rw [fold] at still ⊢
    rcases foldTestZeroCases op e.fold.expr with same | ⟨_,_,_,_,-,same⟩
    · rw [show foldTestZero op e.fold = _ from same _] at still ⊢
      rw [foldSame e still]
    · rw [show foldTestZero op e.fold = _ from same _] at still
      contradiction
  | .call kind method args, still => by
    simp only [fold] at still ⊢
    rw [foldAllSame args still]
  | .callOn kind method r args, still => by
    simp only [fold] at still ⊢
    rw [foldAllSame args still]
  | .var _, _ | .const _ _, _ | .str _, _ | .classRef _, _ | .caught _, _ | .staticField _, _ | .compare _ _ _ _, _
  | .element _ _ _, _ | .instanceOf _ _, _ | .field _ _, _ | .length _, _ | .newArray _ _, _ | .newObject _ _ _, _
  | .filled _ _, _ => by simp only [fold]

theorem foldAllSame : (es : List Expr) → (foldAll es).2 = false → (foldAll es).1 = es
  | [], _ => rfl
  | e :: es, still => by
    simp only [foldAll,Bool.or_eq_false_iff] at still ⊢
    rw [foldSame e still.1,foldAllSame es still.2]

end

theorem foldEta {e : Expr} (still : e.fold.changed = false) : e.fold = ⟨e,false⟩ := by
  change Folded.mk e.fold.expr e.fold.changed = _
  rw [foldSame e still,still]

theorem foldConst (type : String) (n : Int) : (const type n).fold = ⟨const type n,false⟩ := by simp only [fold]

theorem foldBinaryAgain {op : Arith} {type : String} {l r : Expr}
    (kept : ∀ c c', foldBinary op type ⟨l,c⟩ ⟨r,c'⟩ = ⟨binary op l r type,c || c'⟩) :
    (foldBinary op type l.fold r.fold).changed = (l.fold.changed || r.fold.changed) := by
  rcases foldBinaryCases op type l.fold.expr r.fold.expr with same | ⟨_,_,_,_,_,-,-,-,-,same⟩
  · rw [show foldBinary op type l.fold r.fold = _ from same _ _]
  · rw [show foldBinary op type l.fold r.fold = _ from same _ _]
    by_contra still
    obtain ⟨left,right⟩ := Bool.or_eq_false_iff.mp (Bool.eq_false_iff.mpr (Ne.symm still))
    have folds := same l.fold.changed r.fold.changed
    rw [foldSame l left,foldSame r right,kept] at folds
    simp at folds

theorem againOf {f : Folded → Folded} {e e' : Expr} (kept : ∀ c, f ⟨e,c⟩ = ⟨e',c⟩)
    (later : (∀ c, (f ⟨e.fold.expr,c⟩).changed = c) ∨ ∀ c, (f ⟨e.fold.expr,c⟩).changed = true) :
    (f e.fold).changed = e.fold.changed := by
  rcases later with same | same
  · exact same e.fold.changed
  · cases still : e.fold.changed with
    | true => exact same e.fold.changed
    | false =>
      have folds := same false
      rw [foldSame e still,kept] at folds
      contradiction

theorem foldUnaryAgain {op : Arith} {type : String} {e : Expr}
    (kept : ∀ c, foldUnary op type ⟨e,c⟩ = ⟨unary op e type,c⟩) :
    (foldUnary op type e.fold).changed = e.fold.changed :=
  againOf kept ((foldUnaryCases op type e.fold.expr).imp (fun same c => by rw [same])
    fun ⟨_,_,_,_,same⟩ c => by rw [same])

theorem foldCastAgain {target : String} {check : Bool} {e : Expr}
    (kept : ∀ c, foldCast target check ⟨e,c⟩ = ⟨cast target e check,c⟩) :
    (foldCast target check e.fold).changed = e.fold.changed :=
  againOf kept ((foldCastCases target check e.fold.expr).imp (fun same c => by rw [same])
    fun ⟨_,_,_,_,_,_,same⟩ c => by rw [same])

theorem foldTestZeroAgain {op : Cond} {e : Expr} (kept : ∀ c, foldTestZero op ⟨e,c⟩ = ⟨testZero op e,c⟩) :
    (foldTestZero op e.fold).changed = e.fold.changed :=
  againOf kept ((foldTestZeroCases op e.fold.expr).imp (fun same c => by rw [same])
    fun ⟨_,_,_,_,_,same⟩ c => by rw [same])

theorem liftsTestZero {op : Cond} {e : Expr} (other : ∀ a b type bias, e ≠ compare a b type bias) :
    (testZero op e).lifts = e.lifts := by
  cases e <;> first | rfl | exact (other _ _ _ _ rfl).elim

mutual

theorem foldAgain : (e : Expr) → e.fold.expr.fold.changed = e.lifts
  | .binary op l r type => by
    rw [fold,lifts,← foldAgain l,← foldAgain r]
    rcases foldBinaryCases op type l.fold.expr r.fold.expr with same | ⟨t,a,t',b,n,left,right,-,-,same⟩
    · rw [show foldBinary op type l.fold r.fold = _ from same _ _,fold,foldBinaryAgain same]
    · rw [show foldBinary op type l.fold r.fold = _ from same _ _,left,right]
      simp only [foldConst,Bool.or_self]
  | .unary op e type => by
    rw [fold,lifts,← foldAgain e]
    rcases foldUnaryCases op type e.fold.expr with same | ⟨t,a,constant,-,same⟩
    · rw [show foldUnary op type e.fold = _ from same _,fold,foldUnaryAgain same]
    · rw [show foldUnary op type e.fold = _ from same _,constant,foldConst,foldConst]
  | .cast target e check => by
    rw [fold,lifts,← foldAgain e]
    rcases foldCastCases target check e.fold.expr with same | ⟨t,n,constant,-,-,-,same⟩
    · rw [show foldCast target check e.fold = _ from same _,fold,foldCastAgain same]
    · rw [show foldCast target check e.fold = _ from same _,constant,foldConst,foldConst]
  | .test op l r => by
    simp only [fold,lifts,foldAgain l,foldAgain r]
  | .testZero op e => by
    rw [fold]
    rcases foldTestZeroCases op e.fold.expr with same | ⟨a,b,type,bias,compared,same⟩
    · have other : ∀ a b type bias, e ≠ compare a b type bias := by
        rintro a b type bias rfl
        have folds := same false
        simp [fold,foldTestZero] at folds
      rw [show foldTestZero op e.fold = _ from same _,fold,foldTestZeroAgain same,foldAgain e,liftsTestZero other]
    · rw [show foldTestZero op e.fold = _ from same _,foldCompare compared]
      simp only [fold,lifts]
  | .call kind method args => by
    simp only [fold,lifts,foldAllAgain args]
  | .callOn kind method r args => by
    simp only [fold,lifts,foldAllAgain args]
  | .var _ | .const _ _ | .str _ | .classRef _ | .caught _ | .staticField _ | .compare _ _ _ _
  | .element _ _ _ | .instanceOf _ _ | .field _ _ | .length _ | .newArray _ _ | .newObject _ _ _
  | .filled _ _ => by simp only [fold,lifts]

theorem foldAllAgain : (es : List Expr) → (foldAll (foldAll es).1).2 = liftsAny es
  | [] => rfl
  | e :: es => by simp only [foldAll,liftsAny,foldAgain e,foldAllAgain es]

end

end Expr

namespace Test

theorem foldAgain (c : Test) : c.fold.1.fold.2 = c.toExpr.lifts := by
  obtain ⟨d,same⟩ := c.foldToExpr
  rw [fold,fold,same,ofToExpr,Option.getD_some,← same,Expr.foldAgain]

theorem foldSame {c : Test} (still : c.fold.2 = false) : c.fold.1 = c := by
  rw [fold,Expr.foldSame _ still,ofToExpr,Option.getD_some]

end Test

namespace Action

def lifts : Action → Bool
  | assign _ e _ => e.lifts
  | ret (some e) => e.lifts
  | branch c => c.toExpr.lifts
  | switch e => e.lifts
  | storeField _ _ e => e.lifts
  | storeElement _ i e => i.lifts || e.lifts
  | invoke e => e.lifts
  | _ => false

theorem foldAgain (a : Action) : a.fold.1.fold.2 = a.lifts := by
  cases a with
  | ret e => cases e <;> simp only [fold,lifts,Expr.foldAgain]
  | branch c => exact c.foldAgain
  | _ => simp only [fold,lifts,Expr.foldAgain]

theorem foldSame {a : Action} (still : a.fold.2 = false) : a.fold.1 = a := by
  cases a with
  | ret e =>
    cases e with
    | none => rfl
    | some e => exact congrArg (fun e => ret (some e)) (Expr.foldSame e still)
  | branch c => exact congrArg branch (Test.foldSame still)
  | storeElement a i e =>
    simp only [fold,Bool.or_eq_false_iff] at still ⊢
    rw [Expr.foldSame i still.1,Expr.foldSame e still.2]
  | _ => simp_all [fold,Expr.foldSame]

end Action

/-- A second fold reports a change exactly where the first has put the operands of a comparison that can be folded
where they can be. Without one it gives back the expression, or the statement, as it was. -/
theorem Stmt.foldTwice (e : Expr) (s : Stmt) :
    (e.fold.expr.fold = ⟨e.fold.expr,false⟩ ↔ e.lifts = false) ∧ e.fold.expr.fold.changed = e.lifts ∧
      (s.fold.1.fold = (s.fold.1,false) ↔ s.act.lifts = false) ∧ s.fold.1.fold.2 = s.act.lifts := by
  have stmt : s.fold.1.fold.2 = s.act.lifts := s.act.foldAgain
  refine ⟨⟨fun same => ?_,fun none => ?_⟩,e.foldAgain,⟨fun same => ?_,fun none => ?_⟩,stmt⟩
  · rw [← Expr.foldAgain,same]
  · exact Expr.foldEta (e.foldAgain.trans none)
  · rw [← stmt,same]
  · have still : s.fold.1.fold.2 = false := stmt.trans none
    refine Prod.ext ?_ still
    have same : s.act.fold.1.fold.1 = s.act.fold.1 := Action.foldSame still
    exact congrArg (Stmt.mk s.loc) same

/-- The first fold moves a sum from the comparison to the test, and only the second adds. -/
theorem Stmt.foldTwiceLifting : let sum : Expr := .binary .add (.const "I" 1) (.const "I" 2) "I"
    let s : Stmt := ⟨0,.branch ⟨.lt,.compare sum (.var 0) "J" "",none⟩⟩
    s.fold.1 = ⟨0,.branch ⟨.lt,sum,some (.var 0)⟩⟩ ∧
      s.fold.1.fold = (⟨0,.branch ⟨.lt,.const "I" 3,some (.var 0)⟩⟩,true) ∧
      s.fold.1.fold ≠ (s.fold.1,false) := by
  intro sum s
  obtain ⟨-,-,settled,-⟩ := foldTwice sum s
  exact ⟨by rfl,by rfl,fun same => absurd (settled.mp same) (by decide +kernel)⟩

end RegCode
