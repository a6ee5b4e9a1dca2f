import RegCode.Decimal
import RegCode.Instruction
import RegCode.Variable

/-! Expressions over the variables of a method: what they read, whether they act, raise or look at
memory, substitution, types and text. -/
namespace RegCode

open Text (Bytes)

inductive Expr where
  | var (v : VarId)
  | const (type : String) (value : Int)
  | str (text : Bytes)
  | classRef (ref : String)
  | caught (ref : String)
  | binary (op : Arith) (left right : Expr) (type : String)
  | unary (op : Arith) (operand : Expr) (type : String)
  | cast (target : String) (operand : Expr) (check : Bool)
  | compare (left right : Expr) (type : String) (bias : String)
  | test (op : Cond) (left right : Expr)
  | testZero (op : Cond) (left : Expr)
  | instanceOf (operand : Expr) (ref : String)
  | staticField (ref : FieldRef)
  | field (ref : FieldRef) (object : Expr)
  | element (array index : Expr) (type : String)
  | length (array : Expr)
  | newObject (ref : String) (args : List Expr) (init : Bool)
  | newArray (ref : String) (size : Expr)
  | filled (ref : String) (elems : List Expr)
  | call (kind : InvokeKind) (method : MethodRef) (args : List Expr)
  | callOn (kind : InvokeKind) (method : MethodRef) (receiver : Expr) (args : List Expr)
  deriving Repr, Inhabited

namespace Expr

mutual

/-- Whether two expressions are built in the same way. -/
def same : Expr → Expr → Bool
  | var v, var w => v == w
  | const s m, const t n => s == t && m == n
  | str s, str t => s == t
  | classRef s, classRef t => s == t
  | caught s, caught t => s == t
  | binary o a b s, binary p x y t => o == p && same a x && same b y && s == t
  | unary o a s, unary p x t => o == p && same a x && s == t
  | cast s a c, cast t x d => s == t && same a x && c == d
  | compare a b s m, compare x y t n => same a x && same b y && s == t && m == n
  | test o a b, test p x y => o == p && same a x && same b y
  | testZero o a, testZero p x => o == p && same a x
  | instanceOf a s, instanceOf x t => same a x && s == t
  | staticField f, staticField h => f == h
  | field f a, field h x => f == h && same a x
  | element a b s, element x y t => same a x && same b y && s == t
  | length a, length x => same a x
  | newObject s as i, newObject t xs j => s == t && sameAll as xs && i == j
  | newArray s a, newArray t x => s == t && same a x
  | filled s as, filled t xs => s == t && sameAll as xs
  | call k m as, call l n xs => k == l && m == n && sameAll as xs
  | callOn k m a as, callOn l n x xs => k == l && m == n && same a x && sameAll as xs
  | _, _ => false

def sameAll : List Expr → List Expr → Bool
  | [], [] => true
  | a :: as, x :: xs => same a x && sameAll as xs
  | _, _ => false

end

instance : BEq Expr := ⟨same⟩

mutual

@[simp] theorem sameSelf : (e : Expr) → same e e = true
  | var _ | const _ _ | str _ | classRef _ | caught _ | staticField _ => by simp [same]
  | binary _ a b _ | compare a b _ _ | test _ a b | element a b _ => by simp [same,sameSelf a,sameSelf b]
  | unary _ a _ | cast _ a _ | testZero _ a | instanceOf a _ | field _ a | length a | newArray _ a => by
    simp [same,sameSelf a]
  | newObject _ as _ | filled _ as | call _ _ as => by simp [same,sameAllSelf as]
  | callOn _ _ a as => by simp [same,sameSelf a,sameAllSelf as]

@[simp] theorem sameAllSelf : (es : List Expr) → sameAll es es = true
  | [] => by simp [sameAll]
  | a :: as => by simp [sameAll,sameSelf a,sameAllSelf as]

end

instance : ReflBEq Expr := ⟨sameSelf _⟩

def isLeaf : Expr → Bool
  | var _ | const _ _ | str _ => true
  | _ => false

def isConstant : Expr → Bool
  | const _ _ | str _ => true
  | _ => false

def isZero : Expr → Bool
  | const _ 0 => true
  | _ => false

mutual

/-- Variables that evaluation reads, in order, with repetitions. -/
def vars : Expr → List VarId
  | var v => [v]
  | const _ _ | str _ | classRef _ | caught _ | staticField _ => []
  | binary _ l r _ => l.vars ++ r.vars
  | unary _ e _ => e.vars
  | cast _ e _ => e.vars
  | compare l r _ _ => l.vars ++ r.vars
  | test _ l r => l.vars ++ r.vars
  | testZero _ l => l.vars
  | instanceOf e _ => e.vars
  | field _ o => o.vars
  | element a i _ => a.vars ++ i.vars
  | length a => a.vars
  | newObject _ args _ => varsAll args
  | newArray _ n => n.vars
  | filled _ es => varsAll es
  | call _ _ args => varsAll args
  | callOn _ _ r args => r.vars ++ varsAll args

def varsAll : List Expr → List VarId
  | [] => []
  | e :: es => e.vars ++ varsAll es

end

mutual

def hasEffects : Expr → Bool
  | var _ | const _ _ | str _ | classRef _ | caught _ | staticField _ => false
  | binary _ l r _ => l.hasEffects || r.hasEffects
  | unary _ e _ => e.hasEffects
  | cast _ e _ => e.hasEffects
  | compare l r _ _ => l.hasEffects || r.hasEffects
  | test _ l r => l.hasEffects || r.hasEffects
  | testZero _ l => l.hasEffects
  | instanceOf e _ => e.hasEffects
  | field _ o => o.hasEffects
  | element a i _ => a.hasEffects || i.hasEffects
  | length a => a.hasEffects
  | newObject _ _ _ | newArray _ _ | filled _ _ | call _ _ _ | callOn _ _ _ _ => true

def hasEffectsAny : List Expr → Bool
  | [] => false
  | e :: es => e.hasEffects || hasEffectsAny es

end

def canThrow : Expr → Bool
  | var _ | const _ _ | str _ | caught _ => false
  | classRef _ => true
  | binary op l r type =>
    (op.canThrow type && (!r.isConstant || r.isZero)) || l.canThrow || r.canThrow
  | unary _ e _ => e.canThrow
  | cast _ e check => check || e.canThrow
  | compare l r _ _ => l.canThrow || r.canThrow
  | test _ l r => l.canThrow || r.canThrow
  | testZero _ l => l.canThrow
  | _ => true

mutual

/-- Whether evaluation looks at fields, arrays or anything a call may look at. -/
def readsMemory : Expr → Bool
  | var _ | const _ _ | str _ | classRef _ | caught _ => false
  | binary _ l r _ => l.readsMemory || r.readsMemory
  | unary _ e _ => e.readsMemory
  | cast _ e _ => e.readsMemory
  | compare l r _ _ => l.readsMemory || r.readsMemory
  | test _ l r => l.readsMemory || r.readsMemory
  | testZero _ l => l.readsMemory
  | instanceOf e _ => e.readsMemory
  | staticField _ | field _ _ | element _ _ _ | length _ => true
  | newObject _ _ init => init
  | newArray _ n => n.readsMemory
  | filled _ es => readsMemoryAny es
  | call _ _ _ | callOn _ _ _ _ => true

def readsMemoryAny : List Expr → Bool
  | [] => false
  | e :: es => e.readsMemory || readsMemoryAny es

end

mutual

/-- The expression with `e` in place of every read of `v`. -/
def subst (v : VarId) (e : Expr) : Expr → Expr
  | var w => if w = v then e else var w
  | const t n => const t n
  | str s => str s
  | classRef r => classRef r
  | caught r => caught r
  | binary op l r t => binary op (subst v e l) (subst v e r) t
  | unary op x t => unary op (subst v e x) t
  | cast t x c => cast t (subst v e x) c
  | compare l r t b => compare (subst v e l) (subst v e r) t b
  | test op l r => test op (subst v e l) (subst v e r)
  | testZero op l => testZero op (subst v e l)
  | instanceOf x r => instanceOf (subst v e x) r
  | staticField f => staticField f
  | field f o => field f (subst v e o)
  | element a i t => element (subst v e a) (subst v e i) t
  | length a => length (subst v e a)
  | newObject r args init => newObject r (substAll v e args) init
  | newArray r n => newArray r (subst v e n)
  | filled r es => filled r (substAll v e es)
  | call k m args => call k m (substAll v e args)
  | callOn k m r args => callOn k m (subst v e r) (substAll v e args)

def substAll (v : VarId) (e : Expr) : List Expr → List Expr
  | [] => []
  | x :: xs => subst v e x :: substAll v e xs

end

/-- Type descriptor of the value; empty when it is not known. -/
def type (t : VarTable) : Expr → String
  | var v => (t.get v).type
  | const type _ => type
  | str _ => "Ljava/lang/String;"
  | classRef _ => "Ljava/lang/Class;"
  | caught ref => if ref = "" then "Ljava/lang/Throwable;" else ref
  | binary _ _ _ type => type
  | unary _ _ type => type
  | cast target _ _ => target
  | compare _ _ _ _ => "I"
  | test _ _ _ => "Z"
  | testZero _ _ => "Z"
  | instanceOf _ _ => "Z"
  | staticField f => f.type
  | field f _ => f.type
  | element a _ type => (Text.stripStart? "[" (a.type t)).getD type
  | length _ => "I"
  | newObject ref _ _ => ref
  | newArray ref _ => ref
  | filled ref _ => ref
  | call _ m _ => m.result
  | callOn _ m _ _ => m.result

def realLayout : Decimal.Layout := ⟨-4, 6⟩

def constText (type : String) (value : Int) : String :=
  let number := Text.intText (Int.bmod value 4294967296)
  match type with
  | "Z" => if value = 0 then "false" else "true"
  | "J" => Text.intText value ++ "L"
  | "F" => Decimal.text realLayout Decimal.single (value % 4294967296).toNat ++ "F"
  | "D" => Decimal.text realLayout Decimal.double (value % 18446744073709551616).toNat ++ "D"
  | "C" =>
    if 0x20 ≤ value ∧ value < 0x7f then Text.Quoted.encodeChar (Char.ofNat value.toNat) else number
  | "I" | "B" | "S" | "" => number
  | _ => if value = 0 then "null" else number

def isCompound : Expr → Bool
  | binary _ _ _ _ | test _ _ _ | testZero _ _ | cast _ _ _ | instanceOf _ _ | compare _ _ _ _
  | unary _ _ _ => true
  | _ => false

def parenIf (compound : Bool) (s : String) : String := if compound then "(" ++ s ++ ")" else s

def newArrayText (ref size : String) : String :=
  let type := Descriptor.sourceName (Text.stripStart "[" ref)
  let base := type.toList.takeWhile (· != '[')
  let dims := type.toList.dropWhile (· != '[')
  "new " ++ String.ofList base ++ "[" ++ size ++ "]" ++ String.ofList dims

def testZeroText (op : Cond) (type left operand : String) : String :=
  if type = "Z" ∧ op = .ne then left
  else if type = "Z" ∧ op = .eq then "!" ++ operand
  else
    operand ++ " " ++ op.symbol ++ " " ++ if Descriptor.isReference type then "null" else "0"

def callText (kind : InvokeKind) (m : MethodRef) (args : String) : String :=
  if m.name = "<init>" then
    if kind = .direct then "super(" ++ args ++ ")" else "this.<init>(" ++ args ++ ")"
  else Descriptor.sourceName m.owner ++ "." ++ m.name ++ "(" ++ args ++ ")"

def callOnText (kind : InvokeKind) (m : MethodRef) (receiver operand args : String) : String :=
  if m.name = "<init>" then
    if kind = .direct ∧ receiver = "this" then "super(" ++ args ++ ")"
    else receiver ++ ".<init>(" ++ args ++ ")"
  else if kind = .super then "super." ++ m.name ++ "(" ++ args ++ ")"
  else operand ++ "." ++ m.name ++ "(" ++ args ++ ")"

mutual

def text (t : VarTable) : Expr → String
  | var v => t.text v
  | const type value => constText type value
  | str s => Text.Quoted.ofBytes s
  | classRef ref => Descriptor.sourceName ref ++ ".class"
  | caught ref => "<caught " ++ Descriptor.sourceName ((caught ref).type t) ++ ">"
  | binary op l r _ =>
    parenIf l.isCompound (l.text t) ++ " " ++ op.symbol ++ " " ++ parenIf r.isCompound (r.text t)
  | unary op e _ => op.symbol ++ parenIf e.isCompound (e.text t)
  | cast target e _ => "(" ++ Descriptor.sourceName target ++ ") " ++ parenIf e.isCompound (e.text t)
  | compare l r _ bias =>
    parenIf l.isCompound (l.text t) ++ " cmp" ++ bias ++ " " ++ parenIf r.isCompound (r.text t)
  | test op l r =>
    parenIf l.isCompound (l.text t) ++ " " ++ op.symbol ++ " " ++ parenIf r.isCompound (r.text t)
  | testZero op l => testZeroText op (l.type t) (l.text t) (parenIf l.isCompound (l.text t))
  | instanceOf e ref =>
    parenIf e.isCompound (e.text t) ++ " instanceof " ++ Descriptor.sourceName ref
  | staticField f => Descriptor.sourceName f.owner ++ "." ++ f.name
  | field f o => parenIf o.isCompound (o.text t) ++ "." ++ f.name
  | element a i _ => parenIf a.isCompound (a.text t) ++ "[" ++ i.text t ++ "]"
  | length a => parenIf a.isCompound (a.text t) ++ ".length"
  | newObject ref args init =>
    if init then "new " ++ Descriptor.sourceName ref ++ "(" ++ textAll t args ++ ")"
    else "new " ++ Descriptor.sourceName ref
  | newArray ref n => newArrayText ref (n.text t)
  | filled ref es => "new " ++ Descriptor.sourceName ref ++ " \x7b" ++ textAll t es ++ "\x7d"
  | call kind m args => callText kind m (textAll t args)
  | callOn kind m r args =>
    callOnText kind m (r.text t) (parenIf r.isCompound (r.text t)) (textAll t args)

def textAll (t : VarTable) : List Expr → String
  | [] => ""
  | [e] => e.text t
  | e :: es => e.text t ++ ", " ++ textAll t es

end

def nestedEffects : Expr → Bool
  | call _ _ args => hasEffectsAny args
  | callOn _ _ r args => r.hasEffects || hasEffectsAny args
  | _ => false

end Expr

/-- The condition of a branch; without a right side it compares with zero. -/
structure Test where
  op : Cond
  left : Expr
  right : Option Expr
  deriving Repr, Inhabited, BEq

namespace Test

def toExpr (c : Test) : Expr :=
  match c.right with
  | some r => .test c.op c.left r
  | none => .testZero c.op c.left

def ofExpr? : Expr → Option Test
  | .test op l r => some ⟨op, l, some r⟩
  | .testZero op l => some ⟨op, l, none⟩
  | _ => none

def negate (c : Test) : Test := { c with op := c.op.negate }

def subst (v : VarId) (e : Expr) (c : Test) : Test :=
  { c with left := Expr.subst v e c.left, right := c.right.map (Expr.subst v e) }

def text (t : VarTable) (c : Test) : String := c.toExpr.text t

end Test

end RegCode
