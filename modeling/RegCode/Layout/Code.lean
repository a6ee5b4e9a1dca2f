import RegCode.Layout.Line
import RegCode.Tree

/-! Lines of structured code. -/
namespace RegCode.Layout

def labelLines (depth : Nat) (label : String) : List Line :=
  if label = "" then [] else [⟨depth - 1, label ++ ":"⟩]

def isWritten : Stmt → Bool
  | ⟨_, .branch _⟩ | ⟨_, .switch _⟩ => false
  | _ => true

def stmtLines (t : VarTable) (depth : Nat) (ss : List Stmt) : List Line :=
  (ss.filter isWritten).map fun s => ⟨depth, s.text t ++ ";"⟩

def armLines (depth : Nat) (h : ArmHead) : List Line :=
  (h.keys.map fun k => ⟨depth, "case " ++ Text.intText k ++ ":"⟩) ++
    if h.isDefault then [⟨depth, "default:"⟩] else []

def catchText (t : VarTable) (h : CatchHead) : String :=
  "catch (" ++ h.typeText ++ " " ++ (h.var.map t.text).getD "e" ++ ")"

def isPlainBranch : Tree String → Bool
  | .branch "" _ _ _ _ => true
  | _ => false

def loopHead (t : VarTable) (kind : LoopKind) (cond : Option Test) : String :=
  match kind with
  | .pretest => "while (" ++ Tree.condText t cond ++ ")"
  | .posttest => "do"
  | .endless => "while (true)"

def loopTail (t : VarTable) (kind : LoopKind) (cond : Option Test) : String :=
  match kind with
  | .posttest => " while (" ++ Tree.condText t cond ++ ");"
  | _ => ""

mutual

/-- Lines of a part; `lead` stands before the head of a branch. -/
def treeLines (o : Options) (t : VarTable) (depth : Nat) (lead : String) : Tree String → List Line
  | .block l body => labelLines depth l ++ bodyLines o t depth body
  | .stmts l _ ss => labelLines depth l ++ stmtLines t depth ss
  | .branch l _ c a none =>
    labelLines depth l ++ opening o depth (lead ++ "if (" ++ c.text t ++ ")") ++
      bodyLines o t (depth + 1) a ++ closing depth ""
  | .branch l _ c a (some b) =>
    labelLines depth l ++ opening o depth (lead ++ "if (" ++ c.text t ++ ")") ++
      bodyLines o t (depth + 1) a ++ elseLines o t depth b
  | .loop l k _ _ c body =>
    labelLines depth l ++ opening o depth (loopHead t k c) ++ bodyLines o t (depth + 1) body ++
      closing depth (loopTail t k c)
  | .switch l _ v arms =>
    labelLines depth l ++
      opening o depth ("switch (" ++ (v.map (Expr.text t)).getD "<unresolved>" ++ ")") ++
      armsLines o t (depth + 1) arms ++ closing depth ""
  | .guarded l _ body cs none =>
    labelLines depth l ++ opening o depth "try" ++ bodyLines o t (depth + 1) body ++
      catchesLines o t depth cs ++ closing depth ""
  | .guarded l _ body cs (some z) =>
    labelLines depth l ++ opening o depth "try" ++ bodyLines o t (depth + 1) body ++
      catchesLines o t depth cs ++ reopening o depth "finally" ++ bodyLines o t (depth + 1) z ++
      closing depth ""
  | .goto l target => labelLines depth l ++ [⟨depth, "goto " ++ target ++ ";"⟩]
  | .breakTo l target => labelLines depth l ++ [⟨depth, Tree.jumpText "break" target ++ ";"⟩]
  | .continueTo l target => labelLines depth l ++ [⟨depth, Tree.jumpText "continue" target ++ ";"⟩]

def bodyLines (o : Options) (t : VarTable) (depth : Nat) : List (Tree String) → List Line
  | [] => []
  | x :: xs => treeLines o t depth "" x ++ bodyLines o t depth xs

def elseLines (o : Options) (t : VarTable) (depth : Nat) : List (Tree String) → List Line
  | [] => reopening o depth "else" ++ closing depth ""
  | [x] =>
    if o.chainElseIf && isPlainBranch x then
      closingBefore o depth ++ treeLines o t depth (nextHead o "else ") x
    else reopening o depth "else" ++ treeLines o t (depth + 1) "" x ++ closing depth ""
  | x :: xs =>
    reopening o depth "else" ++ treeLines o t (depth + 1) "" x ++ bodyLines o t (depth + 1) xs ++
      closing depth ""

def armsLines (o : Options) (t : VarTable) (depth : Nat) :
    List (ArmHead × List (Tree String)) → List Line
  | [] => []
  | (h, body) :: rest =>
    armLines depth h ++ bodyLines o t (depth + 1) body ++ armsLines o t depth rest

def catchesLines (o : Options) (t : VarTable) (depth : Nat) :
    List (CatchHead × List (Tree String)) → List Line
  | [] => []
  | (h, body) :: rest =>
    reopening o depth (catchText t h) ++ bodyLines o t (depth + 1) body ++ catchesLines o t depth rest

end

end RegCode.Layout
