import RegCode.Flow.Graph

/-! Structured code: sequences, branches, loops, switches, protected code and jumps. Every part
carries a label, whose type is left open; labels that nothing uses are empty texts in the end. -/
namespace RegCode

inductive LoopKind where
  | pretest | posttest | endless
  deriving DecidableEq, Repr, Inhabited

def LoopKind.name : LoopKind → String
  | pretest => "while" | posttest => "do-while" | endless => "endless"

/-- Keys that select an arm of a switch. -/
structure ArmHead where
  keys : List Int
  isDefault : Bool
  deriving DecidableEq, Repr, Inhabited

/-- What a catch clause takes, the variable it puts the exception in, and the node of its handler. -/
structure CatchHead where
  types : List String
  var : Option VarId
  node : NodeId
  deriving DecidableEq, Repr, Inhabited

namespace CatchHead

def typeText (h : CatchHead) : String := " | ".intercalate (h.types.map Descriptor.sourceName)

end CatchHead

/-- Structured code. Copied statements stand for no node, which is written as -1; an endless loop
has no node for its test. -/
inductive Tree (α : Type) where
  | block (label : α) (body : List (Tree α))
  | stmts (label : α) (node : Int) (stmts : List Stmt)
  | branch (label : α) (node : Int) (cond : Test) (onTrue : List (Tree α))
      (onFalse : Option (List (Tree α)))
  | loop (label : α) (kind : LoopKind) (node : Int) (header : Int) (cond : Option Test)
      (body : List (Tree α))
  | switch (label : α) (node : Int) (value : Option Expr) (arms : List (ArmHead × List (Tree α)))
  | guarded (label : α) (region : RegionId) (body : List (Tree α))
      (catches : List (CatchHead × List (Tree α))) (cleanup : Option (List (Tree α)))
  | goto (label : α) (target : String)
  | breakTo (label : α) (target : String)
  | continueTo (label : α) (target : String)
  deriving Repr, Inhabited

/-- What a part of a tree is. -/
inductive TreeKind where
  | block | stmts | branch | loop | switch | guarded | goto | breakTo | continueTo
  deriving DecidableEq, Repr, Inhabited

namespace TreeKind

def name : TreeKind → String
  | block => "block" | stmts => "stmt" | branch => "if" | loop => "loop" | switch => "switch"
  | guarded => "try" | goto => "goto" | breakTo => "break" | continueTo => "continue"

end TreeKind

namespace Tree

variable {α β : Type}

def label : Tree α → α
  | block l _ => l
  | stmts l _ _ => l
  | branch l _ _ _ _ => l
  | loop l _ _ _ _ _ => l
  | switch l _ _ _ => l
  | guarded l _ _ _ _ => l
  | goto l _ => l
  | breakTo l _ => l
  | continueTo l _ => l

mutual

def relabel (f : α → β) : Tree α → Tree β
  | block l body => block (f l) (relabelAll f body)
  | stmts l n ss => stmts (f l) n ss
  | branch l n c t none => branch (f l) n c (relabelAll f t) none
  | branch l n c t (some e) => branch (f l) n c (relabelAll f t) (some (relabelAll f e))
  | loop l k n h c body => loop (f l) k n h c (relabelAll f body)
  | switch l n v arms => switch (f l) n v (relabelArms f arms)
  | guarded l r body cs none => guarded (f l) r (relabelAll f body) (relabelCatches f cs) none
  | guarded l r body cs (some z) =>
    guarded (f l) r (relabelAll f body) (relabelCatches f cs) (some (relabelAll f z))
  | goto l t => goto (f l) t
  | breakTo l t => breakTo (f l) t
  | continueTo l t => continueTo (f l) t

def relabelAll (f : α → β) : List (Tree α) → List (Tree β)
  | [] => []
  | t :: ts => t.relabel f :: relabelAll f ts

def relabelArms (f : α → β) : List (ArmHead × List (Tree α)) → List (ArmHead × List (Tree β))
  | [] => []
  | (h, body) :: rest => (h, relabelAll f body) :: relabelArms f rest

def relabelCatches (f : α → β) : List (CatchHead × List (Tree α)) → List (CatchHead × List (Tree β))
  | [] => []
  | (h, body) :: rest => (h, relabelAll f body) :: relabelCatches f rest

end

mutual

def kinds : Tree α → List TreeKind
  | block _ body => .block :: kindsAll body
  | stmts _ _ _ => [.stmts]
  | branch _ _ _ t none => .branch :: .block :: kindsAll t
  | branch _ _ _ t (some e) => .branch :: .block :: kindsAll t ++ .block :: kindsAll e
  | loop _ _ _ _ _ body => .loop :: .block :: kindsAll body
  | switch _ _ _ arms => .switch :: kindsArms arms
  | guarded _ _ body cs none => .guarded :: .block :: kindsAll body ++ kindsCatches cs
  | guarded _ _ body cs (some z) =>
    .guarded :: .block :: kindsAll body ++ kindsCatches cs ++ .block :: kindsAll z
  | goto _ _ => [.goto]
  | breakTo _ _ => [.breakTo]
  | continueTo _ _ => [.continueTo]

def kindsAll : List (Tree α) → List TreeKind
  | [] => []
  | t :: ts => t.kinds ++ kindsAll ts

def kindsArms : List (ArmHead × List (Tree α)) → List TreeKind
  | [] => []
  | (_, body) :: rest => .block :: kindsAll body ++ kindsArms rest

def kindsCatches : List (CatchHead × List (Tree α)) → List TreeKind
  | [] => []
  | (_, body) :: rest => .block :: kindsAll body ++ kindsCatches rest

end

def nodeIfReal (n : Int) : List Int := if n < 0 then [] else [n]

mutual

def sources : Tree α → List Int
  | block _ body => sourcesAll body
  | stmts _ n _ => nodeIfReal n
  | branch _ n _ t none => n :: sourcesAll t
  | branch _ n _ t (some e) => n :: sourcesAll t ++ sourcesAll e
  | loop _ _ n _ _ body => nodeIfReal n ++ sourcesAll body
  | switch _ n _ arms => n :: sourcesArms arms
  | guarded _ _ body cs none => sourcesAll body ++ sourcesCatches cs
  | guarded _ _ body cs (some z) => sourcesAll body ++ sourcesCatches cs ++ sourcesAll z
  | goto _ _ | breakTo _ _ | continueTo _ _ => []

def sourcesAll : List (Tree α) → List Int
  | [] => []
  | t :: ts => t.sources ++ sourcesAll ts

def sourcesArms : List (ArmHead × List (Tree α)) → List Int
  | [] => []
  | (_, body) :: rest => sourcesAll body ++ sourcesArms rest

def sourcesCatches : List (CatchHead × List (Tree α)) → List Int
  | [] => []
  | (_, body) :: rest => sourcesAll body ++ sourcesCatches rest

end

def endsInExit (ss : List Stmt) : Bool :=
  match ss.getLast?.map Stmt.act with
  | some (.ret _) | some (.throw _) => true
  | _ => false

mutual

def isJump : Tree α → Bool
  | goto _ _ | breakTo _ _ | continueTo _ _ => true
  | stmts _ _ ss => endsInExit ss
  | block _ body => endsInJump body
  | branch _ _ _ t (some e) => endsInJump t && endsInJump e
  | branch _ _ _ _ none => false
  | guarded _ _ body cs none => endsInJump body && catchesEndInJump cs
  | guarded _ _ body cs (some z) => endsInJump z || (endsInJump body && catchesEndInJump cs)
  | loop _ _ _ _ _ _ | switch _ _ _ _ => false

def endsInJump : List (Tree α) → Bool
  | [] => false
  | [t] => t.isJump
  | _ :: ts => endsInJump ts

def catchesEndInJump : List (CatchHead × List (Tree α)) → Bool
  | [] => true
  | (_, body) :: rest => endsInJump body && catchesEndInJump rest

end

def condText (t : VarTable) : Option Test → String
  | some c => c.text t
  | none => "<nil>"

def labelled (label text : String) : String := if label = "" then text else label ++ ": " ++ text

def jumpText (word target : String) : String := if target = "" then word else word ++ " " ++ target

def braced (body : String) : String := "\x7b" ++ body ++ "\x7d"

def armHeadText (h : ArmHead) : String :=
  String.join (h.keys.map fun k => " case " ++ Text.intText k ++ ":") ++
    if h.isDefault then " default:" else ""

mutual

/-- One-line text. -/
def text (t : VarTable) : Tree String → String
  | block l body => labelled l (braced (textAll t body))
  | stmts l _ ss => labelled l ("; ".intercalate (ss.map (Stmt.text t)))
  | branch l _ c a none => labelled l ("if (" ++ c.text t ++ ") " ++ braced (textAll t a))
  | branch l _ c a (some b) =>
    labelled l ("if (" ++ c.text t ++ ") " ++ braced (textAll t a) ++ " else " ++ braced (textAll t b))
  | loop l .posttest _ _ c body =>
    labelled l ("do " ++ braced (textAll t body) ++ " while (" ++ condText t c ++ ")")
  | loop l .endless _ _ _ body => labelled l ("while (true) " ++ braced (textAll t body))
  | loop l .pretest _ _ c body => labelled l ("while (" ++ condText t c ++ ") " ++ braced (textAll t body))
  | switch l _ v arms =>
    labelled l ("switch (" ++ (v.map (Expr.text t)).getD "%!s(<nil>)" ++ ") \x7b" ++
      armsText t arms ++ " \x7d")
  | guarded l _ body cs none => labelled l ("try " ++ braced (textAll t body) ++ catchesText t cs)
  | guarded l _ body cs (some z) =>
    labelled l ("try " ++ braced (textAll t body) ++ catchesText t cs ++ " finally " ++ braced (textAll t z))
  | goto _ target => "goto " ++ target
  | breakTo _ target => jumpText "break" target
  | continueTo _ target => jumpText "continue" target

def textAll (t : VarTable) : List (Tree String) → String
  | [] => ""
  | [x] => x.text t
  | x :: xs => x.text t ++ "; " ++ textAll t xs

def armsText (t : VarTable) : List (ArmHead × List (Tree String)) → String
  | [] => ""
  | (h, body) :: rest => armHeadText h ++ " " ++ braced (textAll t body) ++ armsText t rest

def catchesText (t : VarTable) : List (CatchHead × List (Tree String)) → String
  | [] => ""
  | (h, body) :: rest =>
    " catch (" ++ h.typeText ++ ") " ++ braced (textAll t body) ++ catchesText t rest

end

end Tree

end RegCode
