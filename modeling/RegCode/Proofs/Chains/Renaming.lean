import RegCode.Proofs.Chains.Maintenance

/-! Other names for variables. When definitions of one variable may get different names, what reaches a
use stays the same as long as all that reaches it gets the name that it reads. -/
namespace RegCode

namespace Expr

mutual

def rename (f : VarId → VarId) : Expr → Expr
  | var v => var (f v)
  | const t n => const t n
  | str s => str s
  | classRef r => classRef r
  | caught r => caught r
  | binary op l r t => binary op (rename f l) (rename f r) t
  | unary op x t => unary op (rename f x) t
  | cast t x c => cast t (rename f x) c
  | compare l r t b => compare (rename f l) (rename f r) t b
  | test op l r => test op (rename f l) (rename f r)
  | testZero op l => testZero op (rename f l)
  | instanceOf x r => instanceOf (rename f x) r
  | staticField r => staticField r
  | field r o => field r (rename f o)
  | element a i t => element (rename f a) (rename f i) t
  | length a => length (rename f a)
  | newObject r args init => newObject r (renameAll f args) init
  | newArray r n => newArray r (rename f n)
  | filled r es => filled r (renameAll f es)
  | call k m args => call k m (renameAll f args)
  | callOn k m r args => callOn k m (rename f r) (renameAll f args)

def renameAll (f : VarId → VarId) : List Expr → List Expr
  | [] => []
  | x :: xs => rename f x :: renameAll f xs

end

variable (f g : VarId → VarId)

mutual

theorem varsRename : (x : Expr) → (rename f x).vars = x.vars.map f
  | .var v => by simp only [rename,vars,List.map_cons,List.map_nil]
  | .binary _ l r _ | .compare l r _ _ | .test _ l r | .element l r _ => by
    simp only [rename,vars,List.map_append,varsRename l,varsRename r]
  | .unary _ x _ | .cast _ x _ | .testZero _ x | .instanceOf x _ | .field _ x | .length x | .newArray _ x => by
    simp only [rename,vars,varsRename x]
  | .newObject _ xs _ | .filled _ xs | .call _ _ xs => by simp only [rename,vars,varsRenameAll xs]
  | .callOn _ _ r xs => by simp only [rename,vars,List.map_append,varsRename r,varsRenameAll xs]
  | .const _ _ | .str _ | .classRef _ | .caught _ | .staticField _ => by simp only [rename,vars,List.map_nil]

theorem varsRenameAll : (xs : List Expr) → varsAll (renameAll f xs) = (varsAll xs).map f
  | [] => by simp only [renameAll,varsAll,List.map_nil]
  | x :: xs => by simp only [renameAll,varsAll,List.map_append,varsRename x,varsRenameAll xs]

end

mutual

theorem substRename (v n : VarId) : (x : Expr) →
    subst v (.var n) (rename f x) = rename (fun w => if f w = v then n else f w) x
  | .var w => by
    simp only [rename,subst]
    split <;> rfl
  | .binary _ l r _ | .compare l r _ _ | .test _ l r | .element l r _ => by
    simp only [rename,subst,substRename v n l,substRename v n r]
  | .unary _ x _ | .cast _ x _ | .testZero _ x | .instanceOf x _ | .field _ x | .length x | .newArray _ x => by
    simp only [rename,subst,substRename v n x]
  | .newObject _ xs _ | .filled _ xs | .call _ _ xs => by simp only [rename,subst,substRenameAll v n xs]
  | .callOn _ _ r xs => by simp only [rename,subst,substRename v n r,substRenameAll v n xs]
  | .const _ _ | .str _ | .classRef _ | .caught _ | .staticField _ => by simp only [rename,subst]

theorem substRenameAll (v n : VarId) : (xs : List Expr) →
    substAll v (.var n) (renameAll f xs) = renameAll (fun w => if f w = v then n else f w) xs
  | [] => by simp only [renameAll,substAll]
  | x :: xs => by simp only [renameAll,substAll,substRename v n x,substRenameAll v n xs]

end

mutual

theorem renameSelf : (x : Expr) → rename id x = x
  | .binary _ l r _ | .compare l r _ _ | .test _ l r | .element l r _ => by
    simp only [rename,renameSelf l,renameSelf r]
  | .unary _ x _ | .cast _ x _ | .testZero _ x | .instanceOf x _ | .field _ x | .length x | .newArray _ x => by
    simp only [rename,renameSelf x]
  | .newObject _ xs _ | .filled _ xs | .call _ _ xs => by simp only [rename,renameAllSelf xs]
  | .callOn _ _ r xs => by simp only [rename,renameSelf r,renameAllSelf xs]
  | .var _ | .const _ _ | .str _ | .classRef _ | .caught _ | .staticField _ => by simp only [rename,id]

theorem renameAllSelf : (xs : List Expr) → renameAll id xs = xs
  | [] => by simp only [renameAll]
  | x :: xs => by simp only [renameAll,renameSelf x,renameAllSelf xs]

end

end Expr

theorem Test.renameToExpr (f : VarId → VarId) (c : Test) : ∃ d : Test, Expr.rename f c.toExpr = d.toExpr := by
  obtain ⟨op,left,right⟩ := c
  cases right with
  | none => exact ⟨⟨op,left.rename f,none⟩,by simp only [toExpr,Expr.rename]⟩
  | some r => exact ⟨⟨op,left.rename f,some (r.rename f)⟩,by simp only [toExpr,Expr.rename]⟩

namespace Action

def renamed (reads result : VarId → VarId) : Action → Action
  | assign v e d => assign (result v) (e.rename reads) d
  | a => a.mapExprs (Expr.rename reads)

variable (reads result : VarId → VarId) (a : Action)

theorem defRenamed : (a.renamed reads result).def? = a.def?.map result := by cases a <;> rfl

theorem usesRenamed : (a.renamed reads result).uses = a.uses.map reads := by
  have all := Expr.varsRenameAll reads
  cases a with
  | branch c =>
    obtain ⟨d,same⟩ := c.renameToExpr reads
    have kept : (Action.branch c).renamed reads result = .branch d := by
      simp only [renamed,mapExprs,same,Test.ofToExpr,Option.getD_some]
    rw [kept,uses,exprs,← same]
    exact all [c.toExpr]
  | storeField r o x => cases o with
    | none => exact all [x]
    | some o => exact all [o,x]
  | ret x => cases x with
    | none => exact all []
    | some x => exact all [x]
  | declare u => exact all []
  | assign u x d => exact all [x]
  | invoke x => exact all [x]
  | storeElement a i x => exact all [a,i,x]
  | fill a values => exact all [a]
  | monitor enter o => exact all [o]
  | throw x => exact all [x]
  | switch x => exact all [x]

theorem replaceRenamed (v n : VarId) : (a.renamed reads result).replace v (.var n) =
    a.renamed (fun w => if reads w = v then n else reads w) result := by
  have one := Expr.substRename reads v n
  cases a with
  | branch c =>
    obtain ⟨d,same⟩ := c.renameToExpr reads
    have kept : (Action.branch c).renamed reads result = .branch d := by
      simp only [renamed,mapExprs,same,Test.ofToExpr,Option.getD_some]
    rw [kept,replace,renamed,mapExprs,mapExprs,← one,same,Test.substToExpr,Test.ofToExpr]
    · rfl
    · simp
  | storeField r o x => cases o <;> simp only [renamed,replace,mapExprs,Option.map_none,Option.map_some,one]
  | ret x => cases x <;> simp only [renamed,replace,mapExprs,Option.map_none,Option.map_some,one]
  | _ => simp only [renamed,replace,mapExprs,one]

theorem renameDefRenamed (n : VarId) :
    (a.renamed reads result).renameDef n = a.renamed reads fun _ => n := by
  cases a <;> rfl

theorem renamedSelf : a.renamed id id = a := by
  have one := Expr.renameSelf
  cases a with
  | storeField r o x => cases o <;> simp only [renamed,mapExprs,Option.map_none,Option.map_some,one]
  | ret x => cases x <;> simp only [renamed,mapExprs,Option.map_none,Option.map_some,one]
  | branch c => simp only [renamed,mapExprs,one,Test.ofToExpr,Option.getD_some]
  | _ => simp only [renamed,mapExprs,one,id]

end Action

structure Naming where
  defs : Loc → VarId → VarId
  reads : Loc → VarId → VarId

def Stmt.renamed (n : Naming) (s : Stmt) : Stmt := ⟨s.loc,s.act.renamed (n.reads s.loc) (n.defs s.loc)⟩

namespace Stmt

variable (n : Naming) (s : Stmt)

theorem defRenamed : (s.renamed n).def? = s.def?.map (n.defs s.loc) := s.act.defRenamed _ _

theorem usesRenamed : (s.renamed n).uses = s.uses.map (n.reads s.loc) := s.act.usesRenamed _ _

end Stmt

namespace Graph

/-- One graph is another under other names. -/
structure Renames (g h : Graph) (n : Naming) : Prop extends g.Restated h where
  stmts : ∀ i ∈ g.rpo, (h.node i).stmts = (g.node i).stmts.map (Stmt.renamed n)

structure Agrees (g : Graph) (n : Naming) : Prop where
  params : ∀ {v}, g.Defines v paramLoc → n.defs paramLoc v = v
  apart : ∀ {v w d e}, g.Defines v d → g.Defines w e → n.defs d v = n.defs e w → v = w
  reads : ∀ {p s v d}, g.StmtAt p s → v ∈ s.uses → g.Reaches v d p → n.defs d v = n.reads s.loc v

variable {g h : Graph} {n : Naming} {p q : Point} {s t : Stmt} {ok : Stmt → Prop} {v : VarId} {d : Loc}

theorem Path.monoAt {ok' : Stmt → Prop} (way : g.Path ok p q) (wired : g.Wired) (start : p.node ∈ g.rpo)
    (weaker : ∀ r s, g.StmtAt r s → ok s → ok' s) : g.Path ok' p q := by
  induction way with
  | stay => exact .stay
  | @next i k s way here pass ih => exact .next ih here (weaker ⟨i,k⟩ s ⟨way.inRpo wired start,here⟩ pass)
  | edge way out ih => exact .edge ih out
  | raise way out ih => exact .raise ih out

namespace Renames

theorem rpo (renames : g.Renames h n) : h.rpo = g.rpo := by rw [renames.rest]

theorem place (renames : g.Renames h n) (here : g.StmtAt p s) : h.StmtAt p (s.renamed n) := by
  refine ⟨renames.rpo ▸ here.1,?_⟩
  rw [renames.stmts _ here.1,List.getElem?_map,here.2]
  rfl

theorem origin (renames : g.Renames h n) (here : h.StmtAt p t) : ∃ s, g.StmtAt p s ∧ s.renamed n = t := by
  have member : p.node ∈ g.rpo := renames.rpo ▸ here.1
  have found := here.2
  rw [renames.stmts _ member,List.getElem?_map] at found
  obtain ⟨s,held,same⟩ := Option.map_eq_some_iff.mp found
  exact ⟨s,⟨member,held⟩,same⟩

theorem length (renames : g.Renames h n) {i : NodeId} (member : i ∈ g.rpo) :
    (h.node i).stmts.length = (g.node i).stmts.length := by
  rw [renames.stmts i member,List.length_map]

theorem succs (renames : g.Renames h n) (i : NodeId) :
    (h.node i).succs = (g.node i).succs ∧ (h.node i).catchSuccs = (g.node i).catchSuccs := by
  rw [renames.nodes i]
  exact ⟨rfl,rfl⟩

theorem pathIff (renames : g.Renames h n) (wired : g.Wired) (start : p.node ∈ g.rpo) :
    h.Path ok p q ↔ g.Path (fun s => ok (s.renamed n)) p q := by
  constructor
  · intro way
    induction way with
    | stay => exact .stay
    | @next i k t way here pass ih =>
      have member := ih.inRpo wired start
      obtain ⟨s,origin,rfl⟩ := renames.origin (p := ⟨i,k⟩) ⟨renames.rpo ▸ member,here⟩
      exact .next ih origin.2 pass
    | edge way out ih =>
      have member := ih.inRpo wired start
      rw [renames.length member] at ih
      exact .edge ih ((renames.succs _).1 ▸ out)
    | raise way out ih => exact .raise ih ((renames.succs _).2 ▸ out)
  · intro way
    induction way with
    | stay => exact .stay
    | @next i k s way here pass ih =>
      exact .next ih (renames.place (p := ⟨i,k⟩) ⟨way.inRpo wired start,here⟩).2 pass
    | edge way out ih =>
      rw [← renames.length (way.inRpo wired start)] at ih
      exact .edge ih ((renames.succs _).1.symm ▸ out)
    | raise way out ih => exact .raise ih ((renames.succs _).2.symm ▸ out)

theorem definedAt (renames : g.Renames h n) (agrees : g.Agrees n) (defined : g.DefinedAt v d p) :
    h.DefinedAt (n.defs d v) d p := by
  cases defined with
  | @stmt i k s here defines =>
    refine .stmt (s := s.renamed n) (renames.place here) ?_
    rw [s.defRenamed,defines]
    rfl
  | param member entry =>
    rw [agrees.params ⟨_,.param member entry⟩]
    exact .param (by rw [renames.rest]; exact member) (by rw [renames.rest]; exact entry)

theorem definedFrom (renames : g.Renames h n) (agrees : g.Agrees n) {x : VarId} (defined : h.DefinedAt x d p) :
    ∃ v, g.DefinedAt v d p ∧ n.defs d v = x := by
  cases defined with
  | @stmt i k t here defines =>
    obtain ⟨s,origin,rfl⟩ := renames.origin here
    rw [s.defRenamed] at defines
    obtain ⟨v,own,same⟩ := Option.map_eq_some_iff.mp defines
    exact ⟨v,.stmt (s := s) origin own,same⟩
  | param member entry =>
    rw [renames.rest] at member entry
    exact ⟨x,.param member entry,agrees.params ⟨_,.param member entry⟩⟩

theorem reaches (renames : g.Renames h n) (agrees : g.Agrees n) (wired : g.Wired) (here : g.StmtAt p s)
    (use : v ∈ s.uses) (served : ∃ d, g.Reaches v d p) :
    h.Reaches (n.reads s.loc v) d p ↔ g.Reaches v d p := by
  constructor
  · rintro ⟨q,defined,way⟩
    obtain ⟨w,origin,name⟩ := renames.definedFrom agrees defined
    have start := (origin.inNode wired).1
    obtain rfl : w = v := by
      obtain ⟨e,reached⟩ := served
      exact agrees.apart ⟨q,origin⟩ (reached.imp fun _ => And.left) (name.trans (agrees.reads here use reached).symm)
    have way := (renames.pathIff wired start).mp way
    -- A definition of the variable that the way passes last would reach the use, and so have its name.
    rcases way.last w with clear | ⟨r,t,at_,passed,defines,before,after⟩
    · exact ⟨q,origin,clear.mono fun _ => And.right⟩
    · have member := before.inRpo wired start
      have reached : g.Reaches w t.loc p :=
        ⟨r.next,.stmt ⟨member,at_⟩ defines,after.mono fun _ => And.right⟩
      refine absurd ?_ passed
      rw [t.defRenamed,defines,← agrees.reads here use reached]
      rfl
  · rintro ⟨q,defined,way⟩
    have reached : g.Reaches v d p := ⟨q,defined,way⟩
    rw [← agrees.reads here use reached]
    refine ⟨q,renames.definedAt agrees defined,?_⟩
    rw [renames.pathIff wired (defined.inNode wired).1]
    refine way.monoAt wired (defined.inNode wired).1 fun r t there keeps taken => keeps ?_
    rw [t.defRenamed] at taken
    obtain ⟨w,own,name⟩ := Option.map_eq_some_iff.mp taken
    rw [agrees.apart ⟨q,defined⟩ ⟨_,.stmt (i := r.node) (k := r.index) there own⟩ name.symm]
    exact own

end Renames

end Graph

end RegCode
