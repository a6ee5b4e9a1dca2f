import RegCode.Chains.Propagation
import RegCode.Proofs.Chains.Reading

/-! Evaluation from left to right, one step at a time: operands before what they are operands of, the
target of a store before the value. A value in place of a variable is evaluated where that was read. -/
namespace RegCode

/-- One step of an evaluation. -/
inductive Step where
  | read (v : VarId)
  | staticField (ref : FieldRef)
  | field (ref : FieldRef)
  | element (type : String)
  | length
  | newObject (ref : String) (init : Bool)
  | newArray (ref : String)
  | filled (ref : String)
  | call (kind : InvokeKind) (method : MethodRef)
  | storeField (ref : FieldRef)
  | storeElement
  | fill (values : List Int)
  | monitor (enter : Bool)
  deriving DecidableEq, Repr

namespace Step

def looks : Step → Bool
  | staticField _ | field _ | element _ | length => true
  | _ => false

def acts : Step → Bool
  | newObject _ _ | newArray _ | filled _ | call _ _ | storeField _ | storeElement | fill _ | monitor _ => true
  | _ => false

def changes : Step → Bool
  | newObject _ init => init
  | call _ _ | storeField _ | storeElement | fill _ | monitor _ => true
  | _ => false

def var? : Step → Option VarId
  | read v => some v
  | _ => none

def shows (st : Step) : Bool := st.looks || st.acts

theorem actsOfChanges {st : Step} (changes : st.changes = true) : st.acts = true := by
  cases st <;> first | rfl | contradiction

def subst (v : VarId) (steps : List Step) (st : Step) : List Step :=
  if st = read v then steps else [st]

end Step

namespace Expr

mutual

def steps : Expr → List Step
  | var v => [.read v]
  | const _ _ | str _ | classRef _ | caught _ => []
  | binary _ l r _ => l.steps ++ r.steps
  | unary _ e _ => e.steps
  | cast _ e _ => e.steps
  | compare l r _ _ => l.steps ++ r.steps
  | test _ l r => l.steps ++ r.steps
  | testZero _ l => l.steps
  | instanceOf e _ => e.steps
  | staticField f => [.staticField f]
  | field f o => o.steps ++ [.field f]
  | element a i t => a.steps ++ i.steps ++ [.element t]
  | length a => a.steps ++ [.length]
  | newObject r args init => stepsAll args ++ [.newObject r init]
  | newArray r n => n.steps ++ [.newArray r]
  | filled r es => stepsAll es ++ [.filled r]
  | call k m args => stepsAll args ++ [.call k m]
  | callOn k m r args => r.steps ++ stepsAll args ++ [.call k m]

def stepsAll : List Expr → List Step
  | [] => []
  | e :: es => e.steps ++ stepsAll es

end

variable {v : VarId} {e : Expr}

mutual

theorem varsSteps : (x : Expr) → x.vars = x.steps.filterMap Step.var?
  | .var _ | .const _ _ | .str _ | .classRef _ | .caught _ | .staticField _ => rfl
  | .binary _ l r _ | .compare l r _ _ | .test _ l r | .element l r _ => by
    simp [vars,steps,varsSteps l,varsSteps r,Step.var?]
  | .unary _ x _ | .cast _ x _ | .testZero _ x | .instanceOf x _ | .field _ x | .length x
  | .newArray _ x => by simp [vars,steps,varsSteps x,Step.var?]
  | .newObject _ xs _ | .filled _ xs | .call _ _ xs => by simp [vars,steps,varsStepsAll xs,Step.var?]
  | .callOn _ _ r xs => by simp [vars,steps,varsSteps r,varsStepsAll xs,Step.var?]

theorem varsStepsAll : (xs : List Expr) → varsAll xs = (stepsAll xs).filterMap Step.var?
  | [] => rfl
  | x :: xs => by simp [varsAll,stepsAll,varsSteps x,varsStepsAll xs]

end

mutual

theorem effectsSteps : (x : Expr) → x.hasEffects = x.steps.any Step.acts
  | .var _ | .const _ _ | .str _ | .classRef _ | .caught _ | .staticField _ => rfl
  | .binary _ l r _ | .compare l r _ _ | .test _ l r | .element l r _ => by
    simp [hasEffects,steps,effectsSteps l,effectsSteps r,Step.acts]
  | .unary _ x _ | .cast _ x _ | .testZero _ x | .instanceOf x _ | .field _ x | .length x => by
    simp [hasEffects,steps,effectsSteps x,Step.acts]
  | .newArray _ _ | .newObject _ _ _ | .filled _ _ | .call _ _ _ | .callOn _ _ _ _ => by
    simp [hasEffects,steps,Step.acts]

theorem effectsStepsAll : (xs : List Expr) → hasEffectsAny xs = (stepsAll xs).any Step.acts
  | [] => rfl
  | x :: xs => by simp [hasEffectsAny,stepsAll,effectsSteps x,effectsStepsAll xs]

end

mutual

theorem stepsSubst : (x : Expr) → (subst v e x).steps = x.steps.flatMap (Step.subst v e.steps)
  | .var w => by
    by_cases same : w = v <;> simp [subst,steps,Step.subst,same]
  | .const _ _ | .str _ | .classRef _ | .caught _ => rfl
  | .staticField _ => by simp [subst,steps,Step.subst]
  | .binary _ l r _ | .compare l r _ _ | .test _ l r | .element l r _ => by
    simp [subst,steps,stepsSubst l,stepsSubst r,Step.subst]
  | .unary _ x _ | .cast _ x _ | .testZero _ x | .instanceOf x _ | .field _ x | .length x
  | .newArray _ x => by simp [subst,steps,stepsSubst x,Step.subst]
  | .newObject _ xs _ | .filled _ xs | .call _ _ xs => by simp [subst,steps,stepsSubstAll xs,Step.subst]
  | .callOn _ _ r xs => by simp [subst,steps,stepsSubst r,stepsSubstAll xs,Step.subst]

theorem stepsSubstAll : (xs : List Expr) →
    stepsAll (substAll v e xs) = (stepsAll xs).flatMap (Step.subst v e.steps)
  | [] => rfl
  | x :: xs => by simp [substAll,stepsAll,stepsSubst x,stepsSubstAll xs]

end

theorem stepsQuiet : (x : Expr) → x.hasEffects = false → x.readsMemory = false →
    ∀ st ∈ x.steps, st.shows = false
  | .var _, _, _ => by simp [steps,Step.shows,Step.looks,Step.acts]
  | .const _ _, _, _ | .str _, _, _ | .classRef _, _, _ | .caught _, _, _ => nofun
  | .binary _ l r _, idle, blind | .compare l r _ _, idle, blind | .test _ l r, idle, blind => by
    simp only [hasEffects,readsMemory,Bool.or_eq_false_iff] at idle blind
    have left := stepsQuiet l idle.1 blind.1
    have right := stepsQuiet r idle.2 blind.2
    exact List.forall_mem_append.mpr ⟨left,right⟩
  | .unary _ x _, idle, blind | .cast _ x _, idle, blind | .testZero _ x, idle, blind
  | .instanceOf x _, idle, blind => stepsQuiet x idle blind
  | .staticField _, _, blind | .field _ _, _, blind | .element _ _ _, _, blind | .length _, _, blind =>
    Bool.noConfusion blind
  | .newArray _ _, idle, _ | .newObject _ _ _, idle, _ | .filled _ _, idle, _ | .call _ _ _, idle, _
  | .callOn _ _ _ _, idle, _ => Bool.noConfusion idle

theorem stepsFoldBinary (op : Arith) (type : String) (l r : Folded) :
    (foldBinary op type l r).expr.steps = l.expr.steps ++ r.expr.steps := by
  unfold foldBinary
  dsimp only
  split
  · rename_i a b left right
    rw [left,right]
    split
    · split <;> rfl
    · rfl
  · rfl

theorem stepsFoldUnary (op : Arith) (type : String) (x : Folded) :
    (foldUnary op type x).expr.steps = x.expr.steps := by
  unfold foldUnary
  split
  · rename_i constant
    rw [constant]
    split <;> rfl
  · rfl

theorem stepsFoldCast (target : String) (check : Bool) (x : Folded) :
    (foldCast target check x).expr.steps = x.expr.steps := by
  unfold foldCast
  split
  · rename_i constant
    rw [constant]
    split <;> rfl
  · rfl

theorem stepsFoldTestZero (op : Cond) (x : Folded) : (foldTestZero op x).expr.steps = x.expr.steps := by
  unfold foldTestZero
  split
  · rename_i compared
    rw [compared]
    rfl
  · rfl

mutual

theorem stepsFold : (x : Expr) → x.fold.expr.steps = x.steps
  | .binary _ l r _ => by rw [fold,stepsFoldBinary,stepsFold l,stepsFold r,steps]
  | .unary _ x _ => by rw [fold,stepsFoldUnary,stepsFold x,steps]
  | .cast _ x _ => by rw [fold,stepsFoldCast,stepsFold x,steps]
  | .test _ l r => by simp only [fold,steps,stepsFold l,stepsFold r]
  | .testZero _ x => by rw [fold,stepsFoldTestZero,stepsFold x,steps]
  | .call _ _ xs => by simp only [fold,steps,stepsFoldAll xs]
  | .callOn _ _ r xs => by simp only [fold,steps,stepsFoldAll xs]
  | .var _ | .const _ _ | .str _ | .classRef _ | .caught _ | .staticField _ | .compare _ _ _ _
  | .element _ _ _ | .instanceOf _ _ | .field _ _ | .length _ | .newArray _ _ | .newObject _ _ _
  | .filled _ _ => by simp only [fold]

theorem stepsFoldAll : (xs : List Expr) → stepsAll (foldAll xs).1 = stepsAll xs
  | [] => rfl
  | x :: xs => by simp only [foldAll,stepsAll,stepsFold x,stepsFoldAll xs]

end

end Expr

namespace Action

def own : Action → List Step
  | storeField ref _ _ => [.storeField ref]
  | storeElement _ _ _ => [.storeElement]
  | fill _ values => [.fill values]
  | monitor enter _ => [.monitor enter]
  | _ => []

def steps (a : Action) : List Step := Expr.stepsAll a.exprs ++ a.own

def isStore : Action → Bool
  | storeField _ _ _ | storeElement _ _ _ => true
  | _ => false

variable {v : VarId} {e : Expr} {a : Action}

theorem usesSteps (a : Action) : a.uses = a.steps.filterMap Step.var? := by
  have own : a.own.filterMap Step.var? = [] := by cases a <;> rfl
  rw [steps,List.filterMap_append,own,List.append_nil]
  exact Expr.varsStepsAll a.exprs

theorem stepsReplace (a : Action) : (a.replace v e).steps = a.steps.flatMap (Step.subst v e.steps) := by
  have all := @Expr.stepsSubstAll v e
  have own : a.own.flatMap (Step.subst v e.steps) = a.own := by
    cases a <;> simp [own,Step.subst]
  have exprs : Expr.stepsAll (a.replace v e).exprs = Expr.stepsAll (Expr.substAll v e a.exprs) ∧
      (a.replace v e).own = a.own := by
    cases a with
    | branch c =>
      have kept : (Action.branch c).replace v e = .branch (c.subst v e) := by
        simp only [replace,mapExprs,Test.substToExpr,Test.ofToExpr,Option.getD_some]
      rw [kept]
      refine ⟨?_,rfl⟩
      rw [Action.exprs,Action.exprs,← Test.substToExpr]
      rfl
    | storeField r o x => cases o <;> exact ⟨rfl,rfl⟩
    | ret x => cases x <;> exact ⟨rfl,rfl⟩
    | _ => exact ⟨rfl,rfl⟩
  rw [steps,exprs.1,exprs.2,all,steps,List.flatMap_append,own]

theorem stepsFold (a : Action) : a.fold.1.steps = a.steps := by
  cases a with
  | ret x => cases x <;> simp [fold,steps,exprs,own,Expr.stepsAll,Expr.stepsFold]
  | branch c =>
    obtain ⟨d,same⟩ := c.foldToExpr
    have kept : (Test.fold c).1.toExpr.steps = c.toExpr.steps := by
      rw [Test.fold,same,Test.ofToExpr,Option.getD_some,← same,Expr.stepsFold]
    simp [fold,steps,exprs,own,Expr.stepsAll,kept]
  | storeField r o x => cases o <;> simp [fold,steps,exprs,own,Expr.stepsAll,Expr.stepsFold]
  | _ => simp [fold,steps,exprs,own,Expr.stepsAll,Expr.stepsFold]

theorem stepsAssign (v : VarId) (x : Expr) (d : Bool) : (assign v x d).steps = x.steps := by
  simp [steps,exprs,own,Expr.stepsAll]

theorem stepsIdle (idle : a.hasEffects = false) : ∀ st ∈ a.steps, st.acts = false := by
  cases a with
  | assign v x d =>
    rw [hasEffects,Expr.effectsSteps,List.any_eq_false] at idle
    rw [stepsAssign]
    exact fun st member => Bool.eq_false_iff.mpr (idle st member)
  | declare v => exact nofun
  | _ => contradiction

theorem storeOfExprs {front back : List Expr} (parts : a.exprs = front ++ e :: back)
    (more : back ≠ []) : a.isStore = true := by
  have long : 2 ≤ a.exprs.length := by
    have := List.length_pos_iff.mpr more
    rw [parts,List.length_append,List.length_cons]
    omega
  cases a with
  | ret x => cases x <;> simp [exprs] at long
  | _ => first | rfl | simp [exprs] at long

end Action

open Analysed (actsEarly)

section Lists

variable {α : Type} {p : α → Bool} {xs ys : List α} {mark : α} (inside : mark ∈ xs) (stops : p mark = false)

include inside stops

theorem takeWhileFront : (xs ++ ys).takeWhile p = xs.takeWhile p := by
  induction xs with
  | nil => contradiction
  | cons x xs ih =>
    rw [List.cons_append,List.takeWhile_cons,List.takeWhile_cons]
    split
    · rename_i passes
      rcases List.mem_cons.mp inside with rfl | inside
      · rw [stops] at passes
        contradiction
      · rw [ih inside]
    · rfl

theorem takeWhileStop : ∃ last rest, p last = false ∧ xs = xs.takeWhile p ++ last :: rest := by
  induction xs with
  | nil => contradiction
  | cons x xs ih =>
    rw [List.takeWhile_cons]
    split
    · rename_i passes
      rcases List.mem_cons.mp inside with rfl | inside
      · rw [stops] at passes
        contradiction
      · obtain ⟨last,rest,ends,parts⟩ := ih inside
        exact ⟨last,rest,ends,congrArg (x :: ·) parts⟩
    · rename_i last
      exact ⟨x,xs,Bool.eq_false_iff.mpr last,rfl⟩

end Lists

namespace Expr

variable {e : Expr} {v : VarId}

theorem readSteps : Step.read v ∈ e.steps ↔ v ∈ e.vars := by
  rw [varsSteps,List.mem_filterMap]
  refine ⟨fun member => ⟨_,member,rfl⟩,?_⟩
  rintro ⟨st,member,same⟩
  cases st <;> cases same
  exact member

theorem readStepsAll {es : List Expr} : Step.read v ∈ stepsAll es ↔ v ∈ varsAll es := by
  induction es with
  | nil => simp [stepsAll,varsAll]
  | cons e es ih => rw [stepsAll,varsAll,List.mem_append,List.mem_append,readSteps,ih]

theorem leadIdle (late : actsEarly e = false) (reads : v ∈ e.vars) :
    ∀ st ∈ e.steps.takeWhile (· != .read v), st.acts = false := by
  have operands : ∀ {xs ys : List Step}, e.steps = xs ++ ys → Step.read v ∈ xs → xs.any Step.acts = false →
      ∀ st ∈ e.steps.takeWhile (· != .read v), st.acts = false := by
    intro xs ys parts inside idle st member
    rw [parts,takeWhileFront inside (by simp)] at member
    exact Bool.eq_false_iff.mpr (List.any_eq_false.mp idle st ((List.takeWhile_subset _) member))
  have whole : e.hasEffects = false → ∀ st ∈ e.steps.takeWhile (· != .read v), st.acts = false := fun idle =>
    operands (List.append_nil _).symm (readSteps.mpr reads) (effectsSteps e ▸ idle)
  cases e with
  | newObject r args init =>
    exact operands rfl (readStepsAll.mpr reads) (effectsStepsAll args ▸ late)
  | call k m args =>
    exact operands rfl (readStepsAll.mpr reads) (effectsStepsAll args ▸ late)
  | callOn k m r args =>
    refine operands rfl (List.mem_append.mpr ?_) ?_
    · exact (List.mem_append.mp reads).imp readSteps.mpr readStepsAll.mpr
    · rw [List.any_append,← effectsSteps,← effectsStepsAll]
      exact late
  | _ => exact whole late

theorem leadActs {es : List Expr} (late : ∀ e ∈ es, actsEarly e = false) (reads : v ∈ varsAll es) {st : Step}
    (member : st ∈ (stepsAll es).takeWhile (· != .read v)) (acts : st.acts = true) :
    ∃ front e back, es = front ++ e :: back ∧ v ∉ e.vars ∧ v ∈ varsAll back ∧ st ∈ e.steps := by
  induction es with
  | nil => contradiction
  | cons e es ih =>
    obtain ⟨here,there⟩ := List.forall_mem_cons.mp late
    rw [stepsAll] at member
    by_cases inside : v ∈ e.vars
    · rw [takeWhileFront (readSteps.mpr inside) (by simp)] at member
      rw [leadIdle here inside st member] at acts
      contradiction
    · have later : v ∈ varsAll es := (List.mem_append.mp reads).resolve_left inside
      have passes : ∀ x ∈ e.steps, (x != Step.read v) = true := fun x member =>
        bne_iff_ne.mpr fun same => inside (readSteps.mp (same ▸ member))
      rw [List.takeWhile_append_of_pos passes] at member
      rcases List.mem_append.mp member with own | rest
      · exact ⟨[],e,es,rfl,inside,later,own⟩
      · obtain ⟨front,x,back,rfl,found⟩ := ih there later rest
        exact ⟨e :: front,x,back,rfl,found⟩

end Expr

namespace Stmt

def lead (s : Stmt) (v : VarId) : List Step := s.act.steps.takeWhile (· != .read v)

variable {s : Stmt} {v : VarId} {e : Expr}

theorem readSteps : Step.read v ∈ s.act.steps ↔ v ∈ s.uses := by
  rw [uses,Action.usesSteps,List.mem_filterMap]
  refine ⟨fun member => ⟨_,member,rfl⟩,?_⟩
  rintro ⟨st,member,same⟩
  cases st <;> cases same
  exact member

theorem stepsSplit (reads : v ∈ s.uses) : ∃ rest, s.act.steps = s.lead v ++ .read v :: rest := by
  obtain ⟨last,rest,ends,parts⟩ := takeWhileStop (readSteps.mpr reads) (p := (· != .read v)) (by simp)
  rw [bne_eq_false_iff_eq] at ends
  exact ⟨rest,ends ▸ parts⟩

theorem leadActs (late : Analysed.nestedEffects s = false) (reads : v ∈ s.uses) {st : Step}
    (member : st ∈ s.lead v) (acts : st.acts = true) : s.act.isStore = true ∧ ∃ front e back,
      s.act.exprs = front ++ e :: back ∧ v ∉ e.vars ∧ v ∈ Expr.varsAll back ∧ st ∈ e.steps := by
  have early : ∀ e ∈ s.act.exprs, actsEarly e = false := fun e held =>
    Bool.eq_false_iff.mpr (List.any_eq_false.mp late e held)
  rw [lead,Action.steps,takeWhileFront (Expr.readStepsAll.mpr reads) (by simp)] at member
  obtain ⟨front,e,back,parts,other,later,inside⟩ := Expr.leadActs early reads member acts
  have more : back ≠ [] := fun none => by
    rw [none] at later
    contradiction
  exact ⟨Action.storeOfExprs parts more,front,e,back,parts,other,later,inside⟩

end Stmt
end RegCode
