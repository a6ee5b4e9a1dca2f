import RegCode.Proofs.Assembly.Lines
import RegCode.Proofs.Cache.Transparent
import RegCode.Proofs.Flow.Lines
import RegCode.Proofs.Recovery.Lines

/-! The text of a method, stored and printed later, reads like the method printed from its tree: code without line
breaks in its names is laid out in lines that are there and that do not fall into several. -/
namespace RegCode

open Text (OneLine oneLineAppend oneLineIntercalate oneLineJoin)

namespace Layout

variable {o : Options} {t : VarTable} {depth : Nat}

theorem lineSolid {text : String} (line : OneLine text) (some : text ≠ "") :
    ∀ l ∈ [(⟨depth,text⟩ : Line)], l.Solid := List.forall_mem_singleton.mpr ⟨line,some⟩

theorem labelSolid {label : String} (line : OneLine label) : ∀ l ∈ labelLines depth label, l.Solid := by
  unfold labelLines
  split
  · exact nofun
  · exact lineSolid (by simp +decide [line]) (by simp)

theorem stmtSolid (vars : t.OneLine) {ss : List Stmt} (lines : ∀ s ∈ ss, s.act.OneLine) :
    ∀ l ∈ stmtLines t depth ss, l.Solid := by
  refine List.forall_mem_map.mpr fun s member => ⟨?_,?_⟩
  · simp +decide [Stmt.text,Action.textLine vars (lines s (List.mem_filter.mp member).1)]
  · simp

theorem armSolid (h : ArmHead) : ∀ l ∈ armLines depth h, l.Solid := by
  unfold armLines
  refine List.forall_mem_append.mpr ⟨List.forall_mem_map.mpr fun k _ => ⟨?_,?_⟩,?_⟩
  · simp +decide
  · simp
  · split
    · exact lineSolid (by decide) (by decide)
    · exact nofun

theorem openingSolid {head : String} (line : OneLine head) (some : head ≠ "") :
    ∀ l ∈ opening o depth head, l.Solid := by
  unfold opening
  split
  · exact List.forall_mem_cons.mpr ⟨⟨line,some⟩,lineSolid (by decide) (by decide)⟩
  · exact lineSolid (by simp +decide [line]) (by simp)

theorem closingSolid {tail : String} (line : OneLine tail) : ∀ l ∈ closing depth tail, l.Solid :=
  lineSolid (by simp +decide [line]) (by simp)

theorem closingBeforeSolid : ∀ l ∈ closingBefore o depth, l.Solid := by
  unfold closingBefore
  split
  · exact closingSolid (by decide)
  · exact nofun

theorem nextHeadLine {head : String} (line : OneLine head) : OneLine (nextHead o head) := by
  unfold nextHead
  split
  · exact line
  · simp +decide [line]

theorem reopeningSolid {head : String} (line : OneLine head) (some : head ≠ "") :
    ∀ l ∈ reopening o depth head, l.Solid := by
  refine List.forall_mem_append.mpr ⟨closingBeforeSolid,openingSolid (nextHeadLine line) ?_⟩
  unfold nextHead
  split
  · exact some
  · simp

theorem condLine (vars : t.OneLine) {c : Option Test} (line : ∀ x ∈ c, x.toExpr.OneLine) :
    OneLine (Tree.condText t c) := by
  cases c with
  | none =>
    rw [Tree.condText]
    decide
  | some c => exact c.toExpr.textLine vars (line c rfl)

theorem loopHeadSolid (vars : t.OneLine) (kind : LoopKind) {c : Option Test} (line : ∀ x ∈ c, x.toExpr.OneLine) :
    ∀ l ∈ opening o depth (loopHead t kind c), l.Solid := by
  have cond := condLine vars line
  cases kind with
  | pretest => exact openingSolid (by simp +decide [loopHead,cond]) (by simp [loopHead])
  | posttest | endless => exact openingSolid (by rw [loopHead]; decide) (by simp [loopHead])

theorem loopTailLine (vars : t.OneLine) (kind : LoopKind) {c : Option Test} (line : ∀ x ∈ c, x.toExpr.OneLine) :
    OneLine (loopTail t kind c) := by
  have cond := condLine vars line
  unfold loopTail
  split
  · simp +decide [cond]
  · decide

theorem switchHeadLine (vars : t.OneLine) {v : Option Expr} (line : ∀ e ∈ v, e.OneLine) :
    OneLine ("switch (" ++ (v.map (Expr.text t)).getD "<unresolved>" ++ ")") := by
  cases v with
  | none =>
    rw [Option.map_none,Option.getD_none]
    decide
  | some e => simp +decide [e.textLine vars (line e rfl)]

theorem catchLine (vars : t.OneLine) {h : CatchHead} (line : h.OneLine) :
    OneLine (catchText t h) := by
  have types : OneLine h.typeText :=
    oneLineIntercalate (by decide)
      (List.forall_mem_map.mpr fun type member => Descriptor.sourceNameLine (line type member))
  have name : OneLine ((h.var.map t.text).getD "e") := by
    cases h.var with
    | none =>
      rw [Option.map_none,Option.getD_none]
      decide
    | some v => exact Expr.varLine vars v
  unfold catchText
  simp +decide [types,name]

theorem jumpLine {word target : String} (line : OneLine word) (line' : OneLine target) :
    OneLine (Tree.jumpText word target) := by
  unfold Tree.jumpText
  split
  · exact line
  · simp +decide [line,line']

mutual

theorem treeSolid (vars : t.OneLine) : (x : Tree String) → (∀ y ∈ x.parts, Plain y) → {depth : Nat} →
    {lead : String} → OneLine lead → ∀ l ∈ treeLines o t depth lead x, l.Solid
  | .block l body, plain, depth, lead, _ => by
    obtain ⟨⟨-,label⟩,inner⟩ := List.forall_mem_cons.mp plain
    rw [treeLines]
    exact List.forall_mem_append.mpr ⟨labelSolid label,bodySolid vars body inner⟩
  | .stmts l _ ss, plain, depth, lead, _ => by
    obtain ⟨lines,label⟩ := plain _ (List.mem_singleton_self _)
    rw [treeLines]
    exact List.forall_mem_append.mpr ⟨labelSolid label,stmtSolid vars lines⟩
  | .branch l _ c a none, plain, depth, lead, front => by
    obtain ⟨⟨test,label⟩,inner⟩ := List.forall_mem_cons.mp plain
    have head : OneLine (lead ++ "if (" ++ c.text t ++ ")") := by
      simp +decide [front,Test.text,c.toExpr.textLine vars test]
    rw [treeLines]
    simp only [List.forall_mem_append]
    exact ⟨⟨⟨labelSolid label,openingSolid head (by simp)⟩,bodySolid vars a inner⟩,closingSolid (by decide)⟩
  | .branch l _ c a (some b), plain, depth, lead, front => by
    obtain ⟨⟨test,label⟩,inner⟩ := List.forall_mem_cons.mp plain
    obtain ⟨left,right⟩ := List.forall_mem_append.mp inner
    have head : OneLine (lead ++ "if (" ++ c.text t ++ ")") := by
      simp +decide [front,Test.text,c.toExpr.textLine vars test]
    rw [treeLines]
    simp only [List.forall_mem_append]
    exact ⟨⟨⟨labelSolid label,openingSolid head (by simp)⟩,bodySolid vars a left⟩,elseSolid vars b right⟩
  | .loop l k _ _ c body, plain, depth, lead, _ => by
    obtain ⟨⟨test,label⟩,inner⟩ := List.forall_mem_cons.mp plain
    rw [treeLines]
    simp only [List.forall_mem_append]
    exact ⟨⟨⟨labelSolid label,loopHeadSolid vars k test⟩,bodySolid vars body inner⟩,
      closingSolid (loopTailLine vars k test)⟩
  | .switch l _ v arms, plain, depth, lead, _ => by
    obtain ⟨⟨value,label⟩,inner⟩ := List.forall_mem_cons.mp plain
    rw [treeLines]
    simp only [List.forall_mem_append]
    exact ⟨⟨⟨labelSolid label,openingSolid (switchHeadLine vars value) (by simp)⟩,armsSolid vars arms inner⟩,
      closingSolid (by decide)⟩
  | .guarded l _ body cs none, plain, depth, lead, _ => by
    obtain ⟨⟨types,label⟩,inner⟩ := List.forall_mem_cons.mp plain
    obtain ⟨body',clauses⟩ := List.forall_mem_append.mp inner
    rw [treeLines]
    simp only [List.forall_mem_append]
    exact ⟨⟨⟨⟨labelSolid label,openingSolid (by decide) (by decide)⟩,bodySolid vars body body'⟩,
      catchesSolid vars cs types clauses⟩,closingSolid (by decide)⟩
  | .guarded l _ body cs (some z), plain, depth, lead, _ => by
    obtain ⟨⟨types,label⟩,inner⟩ := List.forall_mem_cons.mp plain
    obtain ⟨body',rest⟩ := List.forall_mem_append.mp inner
    obtain ⟨clauses,cleanup⟩ := List.forall_mem_append.mp rest
    rw [treeLines]
    simp only [List.forall_mem_append]
    exact ⟨⟨⟨⟨⟨⟨labelSolid label,openingSolid (by decide) (by decide)⟩,bodySolid vars body body'⟩,
      catchesSolid vars cs types clauses⟩,reopeningSolid (by decide) (by decide)⟩,bodySolid vars z cleanup⟩,
      closingSolid (by decide)⟩
  | .goto l target, plain, depth, lead, _ => by
    obtain ⟨line,label⟩ := plain _ (List.mem_singleton_self _)
    have line : OneLine target := line
    rw [treeLines]
    exact List.forall_mem_append.mpr ⟨labelSolid label,lineSolid (by simp +decide [line]) (by simp)⟩
  | .breakTo l target, plain, depth, lead, _ | .continueTo l target, plain, depth, lead, _ => by
    obtain ⟨line,label⟩ := plain _ (List.mem_singleton_self _)
    have line : OneLine target := line
    rw [treeLines]
    refine List.forall_mem_append.mpr ⟨labelSolid label,lineSolid ?_ (by simp)⟩
    simp +decide [jumpLine,line]

theorem bodySolid (vars : t.OneLine) : (xs : List (Tree String)) → (∀ y ∈ Tree.partsAll xs, Plain y) →
    {depth : Nat} → ∀ l ∈ bodyLines o t depth xs, l.Solid
  | [], _, _ => nofun
  | x :: xs, plain, depth => by
    rw [Tree.partsAll] at plain
    obtain ⟨first,rest⟩ := List.forall_mem_append.mp plain
    rw [bodyLines]
    exact List.forall_mem_append.mpr ⟨treeSolid vars x first (by decide),bodySolid vars xs rest⟩

theorem elseSolid (vars : t.OneLine) : (xs : List (Tree String)) → (∀ y ∈ Tree.partsAll xs, Plain y) →
    {depth : Nat} → ∀ l ∈ elseLines o t depth xs, l.Solid
  | [], _, depth => by
    rw [elseLines]
    exact List.forall_mem_append.mpr ⟨reopeningSolid (by decide) (by decide),closingSolid (by decide)⟩
  | [x], plain, depth => by
    rw [Tree.partsAll] at plain
    obtain ⟨first,-⟩ := List.forall_mem_append.mp plain
    unfold elseLines
    split
    · exact List.forall_mem_append.mpr ⟨closingBeforeSolid,treeSolid vars x first (nextHeadLine (by decide))⟩
    · simp only [List.forall_mem_append]
      exact ⟨⟨reopeningSolid (by decide) (by decide),treeSolid vars x first (by decide)⟩,closingSolid (by decide)⟩
  | x :: y :: ys, plain, depth => by
    rw [Tree.partsAll] at plain
    obtain ⟨first,rest⟩ := List.forall_mem_append.mp plain
    unfold elseLines
    simp only [List.forall_mem_append]
    exact ⟨⟨⟨reopeningSolid (by decide) (by decide),treeSolid vars x first (by decide)⟩,
      bodySolid vars (y :: ys) rest⟩,closingSolid (by decide)⟩

theorem armsSolid (vars : t.OneLine) : (arms : List (ArmHead × List (Tree String))) →
    (∀ y ∈ Tree.partsArms arms, Plain y) → {depth : Nat} → ∀ l ∈ armsLines o t depth arms, l.Solid
  | [], _, _ => nofun
  | (h,body) :: rest, plain, depth => by
    rw [Tree.partsArms] at plain
    obtain ⟨here,later⟩ := List.forall_mem_append.mp plain
    rw [armsLines]
    simp only [List.forall_mem_append]
    exact ⟨⟨armSolid h,bodySolid vars body here⟩,armsSolid vars rest later⟩

theorem catchesSolid (vars : t.OneLine) : (cs : List (CatchHead × List (Tree String))) →
    (∀ c ∈ cs, c.1.OneLine) → (∀ y ∈ Tree.partsCatches cs, Plain y) → {depth : Nat} →
    ∀ l ∈ catchesLines o t depth cs, l.Solid
  | [], _, _, _ => nofun
  | (h,body) :: rest, types, plain, depth => by
    rw [Tree.partsCatches] at plain
    obtain ⟨here,later⟩ := List.forall_mem_append.mp plain
    obtain ⟨type,types⟩ := List.forall_mem_cons.mp types
    have some : catchText t h ≠ "" := by simp [catchText]
    rw [catchesLines]
    simp only [List.forall_mem_append]
    exact ⟨⟨reopeningSolid (catchLine vars type) some,bodySolid vars body here⟩,
      catchesSolid vars rest types later⟩

end

end Layout

namespace Access

theorem modifiersLine (a : Access) : ∀ w ∈ a.methodModifiers, OneLine w := by
  have words : ∀ x ∈ shared ++ [(abstractBit,"abstract"),(0x20,"synchronized"),(0x100,"native"),(0x800,"strictfp")],
      OneLine x.2 := by decide
  refine List.forall_mem_map.mpr fun x member => words x ?_
  exact (List.mem_filter.mp member).1

end Access

namespace Layout

variable {o : Options} {m : Method} {s : MethodSource} {depth : Nat}

theorem modifierLine {words : List String} (lines : ∀ w ∈ words, OneLine w) : OneLine (modifierText words) := by
  refine oneLineJoin (List.forall_mem_map.mpr fun w member => ?_)
  simp +decide [lines w member]

theorem paramLines {types names : List String} (lines : ∀ t ∈ types, OneLine t) (own : ∀ n ∈ names, OneLine n) :
    ∀ p ∈ paramTexts types names, OneLine p := by
  refine List.forall_mem_map.mpr fun x member => ?_
  have type := Descriptor.sourceNameLine (lines x.1 (List.fst_mem_of_mem_zipIdx member))
  have name : OneLine (names[x.2]?.getD ("arg" ++ Text.natText x.2)) := by
    cases given : names[x.2]? with
    | none => simp +decide
    | some n => exact own n (List.mem_of_getElem? given)
  simp +decide [type,name]

theorem paramNamesLine (vars : s.vars.OneLine) : ∀ n ∈ paramNames s, OneLine n :=
  List.forall_mem_map.mpr fun v _ => Expr.varLine vars v

theorem headLine (method : m.OneLine) {names : List String} (lines : ∀ n ∈ names, OneLine n) :
    OneLine (methodHead m names) := by
  have modifiers := modifierLine m.access.modifiersLine
  have params := oneLineIntercalate (t := ", ") (by decide) (paramLines method.paramTypes lines)
  have result := Descriptor.sourceNameLine method.returnType
  have name : OneLine (if m.name = "<init>" then Descriptor.simpleName m.owner
      else Descriptor.sourceName m.returnType ++ " " ++ m.name) := by
    split
    · exact Descriptor.simpleNameLine method.owner
    · simp +decide [result,method.name]
  unfold methodHead
  split
  · decide
  · simp +decide [modifiers,name,params]

theorem headSome (m : Method) (names : List String) : methodHead m names ≠ "" := by
  unfold methodHead
  split <;> simp

theorem codeSolid (method : m.OneLine) : ∀ l ∈ codeComment depth m, l.Solid := by
  unfold codeComment
  simp only [List.forall_mem_append]
  refine ⟨⟨lineSolid (by decide) (by decide),List.forall_mem_map.mpr fun i member => ⟨?_,?_⟩⟩,
    lineSolid (by decide) (by decide)⟩
  · simp +decide [Instruction.textLine (method.code i member)]
  · simp

theorem declarationSolid (method : s.method.OneLine) (vars : s.vars.OneLine)
    (body : ∀ l ∈ methodBodyLines o s.vars (depth + 1) s.body, l.Solid) :
    ∀ l ∈ declarationLines o depth s, l.Solid := by
  have head := headLine method (paramNamesLine vars)
  have some := headSome s.method (paramNames s)
  unfold declarationLines
  refine List.forall_mem_append.mpr ⟨?_,?_⟩
  · split
    · exact codeSolid method
    · exact nofun
  · split
    · simp only [List.forall_mem_append]
      exact ⟨⟨openingSolid head some,body⟩,closingSolid (by decide)⟩
    · exact lineSolid (by simp +decide [head]) (by simp)

theorem bodyPlain {t : Tree String} (plain : ∀ y ∈ t.parts, Plain y) :
    ∀ y ∈ Tree.partsAll (Workspace.bodyOf t), Plain y := by
  cases t with
  | block l body => exact (List.forall_mem_cons.mp plain).2
  | _ => simpa [Workspace.bodyOf,Tree.partsAll] using plain

open Workspace (treeResult)

variable {c : Config} {d : Decompiled}

theorem loadedLine (loaded : m.Loaded) : m.OneLine := by
  obtain ⟨source,k,member,held⟩ := loaded
  exact Assembly.readOneLine source k member m held

theorem treeResultSolid (loaded : m.Loaded) (made : (m.decompile c).1 = .ok d) :
    ∀ l ∈ declarationLines o depth (treeResult m d).source, l.Solid := by
  obtain ⟨line,tree⟩ := Decompile.runLine c (loadedLine loaded) [] d made
  refine declarationSolid (loadedLine loaded) line.vars ?_
  refine bodySolid line.vars _ ?_
  cases code : d.tree with
  | none => exact nofun
  | some r => exact bodyPlain (Graph.recoverPlain line (tree r code))

def storing (o : Options) (s : MethodSource) : MethodSource := { method := s.method, body := .stored (methodText o s) }

theorem treeResultShows (loaded : m.Loaded) (made : (m.decompile c).1 = .ok d) :
    Shows o (storing o (treeResult m d).source) (treeResult m d).source := by
  intro depth
  refine (storedDeeper (declarationSome o 0 _) (treeResultSolid loaded made) depth).trans ?_
  rw [← declarationDeeper]
  rfl

/-- The method as it is, or with its text in place of the tree that was made of it. -/
inductive Stores (o : Options) : MethodSource → MethodSource → Prop
  | never (s : MethodSource) : Stores o s s
  | once {m : Method} {c : Config} {d : Decompiled} (loaded : m.Loaded) (made : (m.decompile c).1 = .ok d) :
    Stores o (treeResult m d).source (storing o (treeResult m d).source)

theorem Stores.shows {s s' : MethodSource} (stores : Stores o s s') : Shows o s s' := by
  cases stores with
  | never => exact fun _ => rfl
  | once loaded made => exact fun depth => (treeResultShows loaded made depth).symm

/-- The text of a method that was read and decompiled is there, and it comes to what the tree comes to: on its own,
at every depth, and in every class with such methods, also in the classes inside it. -/
theorem storedLikeTree (o : Options) :
    (∀ m c d, m.Loaded → (m.decompile c).1 = .ok d → methodText o (treeResult m d).source ≠ "" ∧ ∀ depth,
      render o (methodLines o depth (storing o (treeResult m d).source)) =
        render o (methodLines o depth (treeResult m d).source)) ∧
    ∀ k k', ClassSource.Alike (Stores o) k k' → classText o k' = classText o k := by
  refine ⟨fun m c d loaded made => ⟨?_,fun depth => ?_⟩,fun k k' alike => ?_⟩
  · exact renderSome (declarationSome o 0 _)
  · rw [renderShown,renderShown,treeResultShows loaded made]
  · exact (classShown (fun _ _ => Stores.shows) alike).symm

def within (s : MethodSource) : ClassSource :=
  .mk { (default : Class) with name := "LOuter;" } [] [.mk { (default : Class) with name := "LOuter$Inner;" } [s] []]

/-- A method that is read, decompiled and stored, two classes deep. -/
theorem storedLikeTreeIdle : (Cache.idle 2).method.Loaded ∧
    ∃ d, ((Cache.idle 2).method.decompile (Cache.idle 2).config).1 = .ok d ∧
      let s := (treeResult (Cache.idle 2).method d).source
      ClassSource.Alike (Stores {}) (within s) (within (storing {} s)) ∧ methodText {} s ≠ "" ∧
        methodText {} (storing {} s) = methodText {} s ∧
        classText {} (within (storing {} s)) = classText {} (within s) := by
  have loaded : (Cache.idle 2).method.Loaded :=
    Cache.idleLoaded ".class L;\n.method f()V\nreturn-void" (by decide +kernel)
  obtain ⟨d,made⟩ : ∃ d, ((Cache.idle 2).method.decompile (Cache.idle 2).config).1 = .ok d := by
    have some := Cache.idleMade
    cases made : ((Cache.idle 2).method.decompile (Cache.idle 2).config).1 with
    | error f => rw [made] at some; contradiction
    | ok d => exact ⟨d,rfl⟩
  obtain ⟨methods,classes⟩ := storedLikeTree {}
  obtain ⟨some,same⟩ := methods _ _ d loaded made
  have alike : ClassSource.Alike (Stores {}) (within (treeResult (Cache.idle 2).method d).source)
      (within (storing {} (treeResult (Cache.idle 2).method d).source)) :=
    .mk .nil (.cons (.mk (.cons (.once loaded made) .nil) .nil) .nil)
  exact ⟨loaded,d,made,alike,some,same 0,classes _ _ alike⟩

end Layout
end RegCode
