import RegCode.Text.Numeral

/-! Variables of a method. Each register has one initial variable; splitting lifetimes adds later
versions of it. -/
namespace RegCode

inductive VarKind where
  | local | param | this | temp
  deriving DecidableEq, Repr, Inhabited

def VarKind.name : VarKind → String
  | «local» => "local" | param => "param" | this => "this" | temp => "temp"

/-- A variable is referred to by its position in the table of its method. -/
abbrev VarId := Nat

structure Variable where
  register : Int := 0
  kind : VarKind := .local
  type : String := ""
  version : Int := 0
  name : String := ""
  deriving DecidableEq, Repr, Inhabited

namespace Variable

def isParam (v : Variable) : Bool := v.kind == .param || v.kind == .this

def text (v : Variable) : String :=
  if v.name ≠ "" then v.name
  else if v.version = 0 then "v" ++ Text.intText v.register
  else "v" ++ Text.intText v.register ++ "_" ++ Text.intText v.version

end Variable

/-- All variables of a method in order of creation. -/
structure VarTable where
  vars : Array Variable
  deriving DecidableEq, Repr, Inhabited

namespace VarTable

def empty : VarTable := ⟨#[]⟩

def size (t : VarTable) : Nat := t.vars.size

def get (t : VarTable) (v : VarId) : Variable := t.vars[v]?.getD {}

def set (t : VarTable) (v : VarId) (x : Variable) : VarTable := ⟨t.vars.setIfInBounds v x⟩

def ids (t : VarTable) : List VarId := List.range t.size

def setType (t : VarTable) (v : VarId) (type : String) : VarTable :=
  t.set v { t.get v with type }

def initial? (t : VarTable) (register : Int) : Option VarId :=
  t.vars.findIdx? fun v => v.register == register && v.version == 0

def push (t : VarTable) (v : Variable) : VarTable × VarId := (⟨t.vars.push v⟩, t.size)

def register (t : VarTable) (r : Int) : VarTable × VarId :=
  match t.initial? r with
  | some v => (t, v)
  | none => t.push { register := r }

def param (t : VarTable) (r : Int) (type : String) (this : Bool) : VarTable × VarId :=
  let (t, v) := t.register r
  let x := t.get v
  let x := if this then { x with type, kind := .this, name := "this" }
    else { x with type, kind := .param, name := "p" ++ Text.intText r }
  (t.set v x, v)

def versions (t : VarTable) (r : Int) : Nat :=
  t.vars.countP fun v => v.register == r && v.version != 0

def fresh (t : VarTable) (base : VarId) : VarTable × VarId :=
  let b := t.get base
  t.push
    { register := b.register
      kind := if b.isParam then .temp else .local
      type := if b.isParam then "" else b.type
      version := t.versions b.register + 1 }

def params (t : VarTable) : List VarId := t.ids.filter fun v => (t.get v).isParam

def text (t : VarTable) (v : VarId) : String := (t.get v).text

end VarTable

end RegCode
