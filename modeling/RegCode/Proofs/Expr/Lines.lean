import RegCode.Stmt.Constructor
import RegCode.Proofs.Assembly.Lines
import RegCode.Proofs.Chains.Reading

/-! Expressions and statements whose names have no line break are written in one line, and rewriting them
leaves them so. -/
namespace RegCode

open Text (OneLine oneLineAppend oneLineIntercalate)

structure Variable.OneLine (x : Variable) : Prop where
  type : Text.OneLine x.type
  name : Text.OneLine x.name

def VarTable.OneLine (t : VarTable) : Prop := ∀ v, (t.get v).OneLine

namespace Expr

mutual

def OneLine : Expr → Prop
  | var _ | str _ => True
  | const type _ => Text.OneLine type
  | classRef ref | caught ref => Text.OneLine ref
  | binary _ l r type => l.OneLine ∧ r.OneLine ∧ Text.OneLine type
  | unary _ e type => e.OneLine ∧ Text.OneLine type
  | cast target e _ => Text.OneLine target ∧ e.OneLine
  | compare l r type bias => l.OneLine ∧ r.OneLine ∧ Text.OneLine type ∧ Text.OneLine bias
  | test _ l r => l.OneLine ∧ r.OneLine
  | testZero _ l => l.OneLine
  | instanceOf e ref => e.OneLine ∧ Text.OneLine ref
  | staticField f => f.OneLine
  | field f o => f.OneLine ∧ o.OneLine
  | element a i type => a.OneLine ∧ i.OneLine ∧ Text.OneLine type
  | length a => a.OneLine
  | newObject ref args _ => Text.OneLine ref ∧ AllOneLine args
  | newArray ref n => Text.OneLine ref ∧ n.OneLine
  | filled ref es => Text.OneLine ref ∧ AllOneLine es
  | call _ m args => m.OneLine ∧ AllOneLine args
  | callOn _ m r args => m.OneLine ∧ r.OneLine ∧ AllOneLine args

def AllOneLine : List Expr → Prop
  | [] => True
  | e :: es => e.OneLine ∧ AllOneLine es

end

theorem allOneLine {es : List Expr} (lines : ∀ e ∈ es, e.OneLine) : AllOneLine es := by
  induction es with
  | nil => trivial
  | cons e es ih => exact ⟨lines e (List.mem_cons_self ..),ih fun e member => lines e (List.mem_cons_of_mem _ member)⟩

section
variable {v : VarId} {e : Expr}

mutual

theorem oneLineSubst (value : e.OneLine) : (x : Expr) → x.OneLine → (subst v e x).OneLine
  | var w, _ => by
    rw [subst]
    split
    · exact value
    · trivial
  | const _ _, line | str _, line | classRef _, line | caught _, line | staticField _, line => line
  | binary _ l r _, ⟨left,right,type⟩ => ⟨oneLineSubst value l left,oneLineSubst value r right,type⟩
  | unary _ x _, ⟨operand,type⟩ => ⟨oneLineSubst value x operand,type⟩
  | cast _ x _, ⟨target,operand⟩ => ⟨target,oneLineSubst value x operand⟩
  | compare l r _ _, ⟨left,right,rest⟩ => ⟨oneLineSubst value l left,oneLineSubst value r right,rest⟩
  | test _ l r, ⟨left,right⟩ => ⟨oneLineSubst value l left,oneLineSubst value r right⟩
  | testZero _ l, left => oneLineSubst value l left
  | instanceOf x _, ⟨operand,ref⟩ => ⟨oneLineSubst value x operand,ref⟩
  | field _ o, ⟨ref,object⟩ => ⟨ref,oneLineSubst value o object⟩
  | element a i _, ⟨array,index,type⟩ => ⟨oneLineSubst value a array,oneLineSubst value i index,type⟩
  | length a, array => oneLineSubst value a array
  | newObject _ args _, ⟨ref,lines⟩ => ⟨ref,oneLineSubstAll value args lines⟩
  | newArray _ n, ⟨ref,size⟩ => ⟨ref,oneLineSubst value n size⟩
  | filled _ es, ⟨ref,lines⟩ => ⟨ref,oneLineSubstAll value es lines⟩
  | call _ _ args, ⟨ref,lines⟩ => ⟨ref,oneLineSubstAll value args lines⟩
  | callOn _ _ r args, ⟨ref,receiver,lines⟩ =>
    ⟨ref,oneLineSubst value r receiver,oneLineSubstAll value args lines⟩

theorem oneLineSubstAll (value : e.OneLine) : (es : List Expr) → AllOneLine es → AllOneLine (substAll v e es)
  | [], _ => trivial
  | x :: xs, ⟨first,rest⟩ => ⟨oneLineSubst value x first,oneLineSubstAll value xs rest⟩

end

end

theorem oneLineFoldBinary (op : Arith) {type : String} {l r : Folded} (left : l.expr.OneLine)
    (right : r.expr.OneLine) (line : Text.OneLine type) : (foldBinary op type l r).expr.OneLine := by
  unfold foldBinary
  dsimp only
  split
  · split
    · split
      · exact line
      · exact ⟨left,right,line⟩
    · exact ⟨left,right,line⟩
  · exact ⟨left,right,line⟩

theorem oneLineFoldUnary (op : Arith) {type : String} {x : Folded} (operand : x.expr.OneLine)
    (line : Text.OneLine type) : (foldUnary op type x).expr.OneLine := by
  unfold foldUnary
  split
  · split
    · exact line
    · exact ⟨operand,line⟩
  · exact ⟨operand,line⟩

theorem oneLineFoldCast {target : String} (check : Bool) {x : Folded} (line : Text.OneLine target)
    (operand : x.expr.OneLine) : (foldCast target check x).expr.OneLine := by
  unfold foldCast
  split
  · split
    · exact line
    · exact ⟨line,operand⟩
  · exact ⟨line,operand⟩

theorem oneLineFoldTestZero (op : Cond) {x : Folded} (operand : x.expr.OneLine) :
    (foldTestZero op x).expr.OneLine := by
  unfold foldTestZero
  split
  · rename_i same
    rw [same] at operand
    exact ⟨operand.1,operand.2.1⟩
  · exact operand

mutual

theorem oneLineFold : (e : Expr) → e.OneLine → e.fold.expr.OneLine
  | binary op l r _, ⟨left,right,type⟩ => oneLineFoldBinary op (oneLineFold l left) (oneLineFold r right) type
  | unary op x _, ⟨operand,type⟩ => oneLineFoldUnary op (oneLineFold x operand) type
  | cast _ x check, ⟨target,operand⟩ => oneLineFoldCast check target (oneLineFold x operand)
  | test _ l r, ⟨left,right⟩ => ⟨oneLineFold l left,oneLineFold r right⟩
  | testZero op l, left => oneLineFoldTestZero op (oneLineFold l left)
  | call _ _ args, ⟨ref,lines⟩ => ⟨ref,oneLineFoldAll args lines⟩
  | callOn _ _ _ args, ⟨ref,receiver,lines⟩ => ⟨ref,receiver,oneLineFoldAll args lines⟩
  | var _, line | const _ _, line | str _, line | classRef _, line | caught _, line | compare _ _ _ _, line
  | instanceOf _ _, line | staticField _, line | field _ _, line | element _ _ _, line | length _, line
  | newObject _ _ _, line | newArray _ _, line | filled _ _, line => line

theorem oneLineFoldAll : (es : List Expr) → AllOneLine es → AllOneLine (foldAll es).1
  | [], _ => trivial
  | x :: xs, ⟨first,rest⟩ => ⟨oneLineFold x first,oneLineFoldAll xs rest⟩

end

section
variable {t : VarTable}

theorem typeLine (vars : t.OneLine) : (e : Expr) → e.OneLine → Text.OneLine (e.type t)
  | var v, _ => (vars v).type
  | const _ _, line => line
  | str _, _ | classRef _, _ | compare _ _ _ _, _ | test _ _ _, _ | testZero _ _, _ | instanceOf _ _, _
  | length _, _ => by
    rw [type]
    decide
  | caught ref, line => by
    rw [type]
    split
    · decide
    · exact line
  | binary _ _ _ _, ⟨_,_,line⟩ | unary _ _ _, ⟨_,line⟩ | cast _ _ _, ⟨line,_⟩ => line
  | staticField _, line | field _ _, ⟨line,_⟩ => line.type
  | element a _ _, ⟨array,_,line⟩ => by
    rw [type]
    cases cut : Text.stripStart? "[" (a.type t) with
    | none => exact line
    | some _ => exact Text.oneLineStrip (typeLine vars a array) cut
  | newObject _ _ _, ⟨line,_⟩ | newArray _ _, ⟨line,_⟩ | filled _ _, ⟨line,_⟩ => line
  | call _ _ _, ⟨line,_⟩ | callOn _ _ _ _, ⟨line,_,_⟩ => line.result

theorem constTextLine (type : String) (value : Int) : Text.OneLine (constText type value) := by
  unfold constText
  split
  case h_1 => split <;> decide
  case h_2 => simp +decide
  case h_3 | h_4 => simp +decide [Decimal.textLine]
  case h_5 =>
    split
    · exact Text.Quoted.encodeCharLine _
    · simp
  case h_10 =>
    split
    · decide
    · simp
  all_goals simp

theorem parenLine (compound : Bool) {s : String} (line : Text.OneLine s) : Text.OneLine (parenIf compound s) := by
  unfold parenIf
  split
  · simpa +decide using line
  · exact line

theorem newArrayLine {ref size : String} (line : Text.OneLine ref) (count : Text.OneLine size) :
    Text.OneLine (newArrayText ref size) := by
  have type := Descriptor.sourceNameLine (Text.oneLineStripStart "[" line)
  have base := type.subset (List.takeWhile_subset (· != '['))
  have dims := type.subset (List.dropWhile_subset (· != '['))
  unfold newArrayText
  simp +decide [base,dims,count]

theorem testZeroLine (op : Cond) (type : String) {left operand : String} (line : Text.OneLine left)
    (line' : Text.OneLine operand) : Text.OneLine (testZeroText op type left operand) := by
  have symbol : Text.OneLine op.symbol := by cases op <;> decide
  unfold testZeroText
  split
  · exact line
  · split
    · simpa +decide using line'
    · have zero : Text.OneLine (if Descriptor.isReference type then "null" else "0") := by split <;> decide
      simp +decide [line',symbol,zero]

theorem callLine (kind : InvokeKind) {m : MethodRef} {args : String} (ref : m.OneLine)
    (line : Text.OneLine args) : Text.OneLine (callText kind m args) := by
  have owner := Descriptor.sourceNameLine ref.owner
  unfold callText
  split
  · split <;> simp +decide [line]
  · simp +decide [owner,ref.name,line]

theorem callOnLine (kind : InvokeKind) {m : MethodRef} {receiver operand args : String} (ref : m.OneLine)
    (object : Text.OneLine receiver) (object' : Text.OneLine operand) (line : Text.OneLine args) :
    Text.OneLine (callOnText kind m receiver operand args) := by
  unfold callOnText
  split
  · split <;> simp +decide [object,line]
  · split <;> simp +decide [object',ref.name,line]

theorem arithLine (op : Arith) : Text.OneLine op.symbol := by cases op <;> decide

theorem condLine (op : Cond) : Text.OneLine op.symbol := by cases op <;> decide

theorem varLine (vars : t.OneLine) (v : VarId) : Text.OneLine (t.text v) := by
  unfold VarTable.text Variable.text
  split
  · exact (vars v).name
  · split <;> simp +decide

theorem infixLine {l r symbol : String} (c d : Bool) (left : Text.OneLine l) (right : Text.OneLine r)
    (line : Text.OneLine symbol) : Text.OneLine (parenIf c l ++ " " ++ symbol ++ " " ++ parenIf d r) := by
  simp +decide [parenLine,left,right,line]

mutual

theorem textLine (vars : t.OneLine) : (e : Expr) → e.OneLine → Text.OneLine (e.text t)
  | var v, _ => varLine vars v
  | const type value, _ => constTextLine type value
  | str s, _ => Text.Quoted.ofBytesLine s
  | classRef ref, line => by
    rw [text]
    simp +decide [Descriptor.sourceNameLine line]
  | caught ref, line => by
    rw [text]
    simp +decide [Descriptor.sourceNameLine (typeLine vars (caught ref) line)]
  | binary op l r _, ⟨left,right,_⟩ => by
    rw [text]
    exact infixLine _ _ (textLine vars l left) (textLine vars r right) (arithLine op)
  | unary op x _, ⟨operand,_⟩ => by
    rw [text]
    simp [arithLine,parenLine,textLine vars x operand]
  | cast target x _, ⟨line,operand⟩ => by
    rw [text]
    simp +decide [Descriptor.sourceNameLine line,parenLine,textLine vars x operand]
  | compare l r _ _, ⟨left,right,_,bias⟩ => by
    rw [text]
    simp +decide [parenLine,textLine vars l left,textLine vars r right,bias]
  | test op l r, ⟨left,right⟩ => by
    rw [text]
    exact infixLine _ _ (textLine vars l left) (textLine vars r right) (condLine op)
  | testZero op l, left => by
    rw [text]
    exact testZeroLine op _ (textLine vars l left) (parenLine _ (textLine vars l left))
  | instanceOf x ref, ⟨operand,line⟩ => by
    rw [text]
    simp +decide [Descriptor.sourceNameLine line,parenLine,textLine vars x operand]
  | staticField f, line => by
    rw [text]
    simp +decide [Descriptor.sourceNameLine line.owner,line.name]
  | field f o, ⟨line,object⟩ => by
    rw [text]
    simp +decide [line.name,parenLine,textLine vars o object]
  | element a i _, ⟨array,index,_⟩ => by
    rw [text]
    simp +decide [parenLine,textLine vars a array,textLine vars i index]
  | length a, array => by
    rw [text]
    simp +decide [parenLine,textLine vars a array]
  | newObject ref args init, ⟨line,lines⟩ => by
    rw [text]
    split <;> simp +decide [Descriptor.sourceNameLine line,textAllLine vars args lines]
  | newArray ref n, ⟨line,size⟩ => newArrayLine line (textLine vars n size)
  | filled ref es, ⟨line,lines⟩ => by
    rw [text]
    simp +decide [Descriptor.sourceNameLine line,textAllLine vars es lines]
  | call kind m args, ⟨line,lines⟩ => callLine kind line (textAllLine vars args lines)
  | callOn kind m r args, ⟨line,receiver,lines⟩ =>
    callOnLine kind line (textLine vars r receiver) (parenLine _ (textLine vars r receiver))
      (textAllLine vars args lines)

theorem textAllLine (vars : t.OneLine) : (es : List Expr) → AllOneLine es → Text.OneLine (textAll t es)
  | [], _ => by
    rw [textAll]
    decide
  | [e], ⟨line,_⟩ => textLine vars e line
  | e :: x :: xs, ⟨first,rest⟩ => by
    rw [textAll]
    · simp +decide [textLine vars e first,textAllLine vars (x :: xs) rest]
    · exact nofun

end

end

end Expr

namespace Test

theorem oneLineOf {e : Expr} {c : Test} (tests : ofExpr? e = some c) (line : e.OneLine) : c.toExpr.OneLine := by
  unfold ofExpr? at tests
  split at tests
  · cases tests
    exact line
  · cases tests
    exact line
  · contradiction

theorem oneLineFold (c : Test) (line : c.toExpr.OneLine) : c.fold.1.toExpr.OneLine := by
  unfold fold
  dsimp only
  cases tests : ofExpr? c.toExpr.fold.expr with
  | none => exact line
  | some d => exact oneLineOf tests (c.toExpr.oneLineFold line)

theorem oneLineNegate (c : Test) : c.negate.toExpr.OneLine ↔ c.toExpr.OneLine := by
  obtain ⟨op,left,right⟩ := c
  cases right <;> exact Iff.rfl

end Test

namespace Action

def OneLine : Action → Prop
  | assign _ e _ | invoke e | throw e | switch e | monitor _ e | fill e _ => e.OneLine
  | declare _ => True
  | storeField ref o e => ref.OneLine ∧ (∀ x ∈ o, x.OneLine) ∧ e.OneLine
  | storeElement a i e => a.OneLine ∧ i.OneLine ∧ e.OneLine
  | ret e => ∀ x ∈ e, x.OneLine
  | branch c => c.toExpr.OneLine

theorem oneLineMap {f : Expr → Expr} (keeps : ∀ e, e.OneLine → (f e).OneLine) {a : Action} (line : a.OneLine) :
    (a.mapExprs f).OneLine := by
  have both : ∀ o : Option Expr, (∀ x ∈ o, x.OneLine) → ∀ x ∈ o.map f, x.OneLine := by
    intro o lines x member
    obtain ⟨e,here,rfl⟩ := Option.map_eq_some_iff.mp member
    exact keeps e (lines e here)
  cases a with
  | assign _ e _ | invoke e | throw e | switch e | monitor _ e | fill e _ => exact keeps e line
  | declare _ => trivial
  | storeField _ o e => exact ⟨line.1,both o line.2.1,keeps e line.2.2⟩
  | storeElement a i e => exact ⟨keeps a line.1,keeps i line.2.1,keeps e line.2.2⟩
  | ret e => exact both e line
  | branch c =>
    rw [mapExprs]
    cases tests : Test.ofExpr? (f c.toExpr) with
    | none => exact line
    | some d => exact Test.oneLineOf tests (keeps _ line)

theorem oneLineReplace {v : VarId} {e : Expr} (value : e.OneLine) {a : Action} (line : a.OneLine) :
    (a.replace v e).OneLine := oneLineMap (fun x => Expr.oneLineSubst value x) line

theorem oneLineFold {a : Action} (line : a.OneLine) : a.fold.1.OneLine := by
  cases a with
  | assign _ e _ | invoke e | switch e => exact e.oneLineFold line
  | storeField _ _ e => exact ⟨line.1,line.2.1,e.oneLineFold line.2.2⟩
  | storeElement _ i e => exact ⟨line.1,i.oneLineFold line.2.1,e.oneLineFold line.2.2⟩
  | ret e =>
    cases e with
    | none => exact line
    | some e =>
      rintro x ⟨⟩
      exact e.oneLineFold (line e rfl)
  | branch c => exact c.oneLineFold line
  | declare _ | throw _ | monitor _ _ | fill _ _ => exact line

theorem oneLineRename (v : VarId) {a : Action} (line : a.OneLine) : (a.renameDef v).OneLine := by
  cases a <;> exact line

theorem oneLineWithout {a : Action} (line : a.OneLine) : a.withoutResult.OneLine := by
  cases a <;> exact line

theorem oneLineDeclaring {a : Action} (line : a.OneLine) : a.declaring.OneLine := by
  cases a <;> exact line

section
variable {t : VarTable}

theorem declaredLine (vars : t.OneLine) (v : VarId) (value : Option Expr) (line : ∀ e ∈ value, e.OneLine) :
    Text.OneLine (declaredType t v value) := by
  unfold declaredType
  dsimp only
  split
  · exact (vars v).type
  · split
    · decide
    · decide
    · rename_i type _ made
      obtain ⟨e,rfl,rfl⟩ := Option.map_eq_some_iff.mp made
      exact e.typeLine vars (line e rfl)

theorem textLine (vars : t.OneLine) {a : Action} (line : a.OneLine) : Text.OneLine (a.text t) := by
  have one : ∀ e : Expr, e.OneLine → Text.OneLine (e.text t) := fun e => e.textLine vars
  cases a with
  | assign v e declares =>
    have declared := Descriptor.sourceNameLine (declaredLine vars v (some e) (by rintro x ⟨⟩; exact line))
    have front : Text.OneLine
        (if declares then Descriptor.sourceName (declaredType t v (some e)) ++ " " else "") := by
      split
      · simp +decide [declared]
      · decide
    simp +decide [text,front,Expr.varLine vars v,one e line]
  | declare v =>
    have declared := Descriptor.sourceNameLine (declaredLine vars v none nofun)
    simp +decide [text,declared,Expr.varLine vars v]
  | invoke e => exact one e line
  | storeField ref o e =>
    cases o with
    | none => simp +decide [text,one (.staticField ref) line.1,one e line.2.2]
    | some o => simp +decide [text,one (.field ref o) ⟨line.1,line.2.1 o rfl⟩,one e line.2.2]
  | storeElement a i e =>
    simp +decide [text,Expr.parenLine,one a line.1,one i line.2.1,one e line.2.2]
  | fill a values =>
    have listed : Text.OneLine (", ".intercalate (values.map Text.intText)) :=
      oneLineIntercalate (by decide) (List.forall_mem_map.mpr fun x _ => Text.oneLineInt x)
    simp +decide [text,one a line,listed]
  | monitor enter e =>
    cases enter <;> simp +decide [text,one e line]
  | ret e =>
    cases e with
    | none =>
      rw [text]
      decide
    | some e => simp +decide [text,one e (line e rfl)]
  | throw e | switch e => simp +decide [text,one e line]
  | branch c => simp +decide [text,Test.text,one c.toExpr line]

end

end Action

end RegCode
