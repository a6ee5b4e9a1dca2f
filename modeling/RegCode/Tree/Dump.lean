import RegCode.Json
import RegCode.Tree

/-! Trees as JSON documents. Members without content are left out, except the body of an arm or a
clause. -/
namespace RegCode.Tree

open Json (Value textMember listMember)

def member (key : String) (v : Value) : List (String × Value) := [(key, v)]

def kindMember (kind label : String) : List (String × Value) :=
  ("kind", .str kind) :: textMember "label" label

def condMember (t : VarTable) : Option Test → List (String × Value)
  | some c => textMember "cond" (c.text t)
  | none => []

def armMembers (h : ArmHead) : List (String × Value) :=
  listMember "keys" (h.keys.map .int) ++ if h.isDefault then [("default", .bool true)] else []

def catchMembers (t : VarTable) (h : CatchHead) : List (String × Value) :=
  listMember "types" (h.types.map fun x => .str (Descriptor.sourceName x)) ++
    match h.var with
    | some v => textMember "var" (t.text v)
    | none => []

mutual

def toJson (t : VarTable) : Tree String → Value
  | block l body => .obj (kindMember "block" l ++ listMember "body" (toJsonAll t body))
  | stmts l n ss =>
    .obj (kindMember "statement" l ++ member "node" (.int n) ++
      listMember "stmts" (ss.map fun s => .str (s.text t)))
  | branch l n c a none =>
    .obj (kindMember "if" l ++ member "node" (.int n) ++ condMember t (some c) ++
      listMember "then" (toJsonAll t a))
  | branch l n c a (some b) =>
    .obj (kindMember "if" l ++ member "node" (.int n) ++ condMember t (some c) ++
      listMember "then" (toJsonAll t a) ++ listMember "else" (toJsonAll t b))
  | loop l k n _ c body =>
    .obj (kindMember "loop" l ++ (if n < 0 then [] else member "node" (.int n)) ++ condMember t c ++
      member "loop" (.str k.name) ++ listMember "body" (toJsonAll t body))
  | switch l n v arms =>
    .obj (kindMember "switch" l ++ member "node" (.int n) ++
      textMember "value" ((v.map (Expr.text t)).getD "") ++ listMember "cases" (armsJson t arms))
  | guarded l _ body cs none =>
    .obj (kindMember "try" l ++ listMember "body" (toJsonAll t body) ++
      listMember "catches" (catchesJson t cs))
  | guarded l _ body cs (some z) =>
    .obj (kindMember "try" l ++ listMember "body" (toJsonAll t body) ++
      listMember "catches" (catchesJson t cs) ++ listMember "finally" (toJsonAll t z))
  | goto l target => .obj (kindMember "goto" l ++ textMember "target" target)
  | breakTo l target => .obj (kindMember "break" l ++ textMember "target" target)
  | continueTo l target => .obj (kindMember "continue" l ++ textMember "target" target)

def toJsonAll (t : VarTable) : List (Tree String) → List Value
  | [] => []
  | x :: xs => x.toJson t :: toJsonAll t xs

def armsJson (t : VarTable) : List (ArmHead × List (Tree String)) → List Value
  | [] => []
  | (h, body) :: rest =>
    .obj (armMembers h ++ member "body" (.arr (toJsonAll t body))) :: armsJson t rest

def catchesJson (t : VarTable) : List (CatchHead × List (Tree String)) → List Value
  | [] => []
  | (h, body) :: rest =>
    .obj (catchMembers t h ++ member "body" (.arr (toJsonAll t body))) :: catchesJson t rest

end

end RegCode.Tree
