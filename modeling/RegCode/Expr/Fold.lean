import RegCode.Expr

/-! Evaluation of constant subexpressions, and of three-way comparisons that are tested at once. -/
namespace RegCode

def isIntegral (type : String) : Bool :=
  type == "I" || type == "J" || type == "B" || type == "S" || type == "C" || type == "Z"

def truncateTo (type : String) (n : Int) : Int :=
  match type with
  | "I" => Int.bmod n 4294967296
  | "B" => Int.bmod n 256
  | "S" => Int.bmod n 65536
  | "C" => n % 65536
  | "Z" => if n = 0 then 0 else 1
  | _ => n

namespace Arith

def bitwise (f : BitVec 64 → BitVec 64 → BitVec 64) (a b : Int) : Int :=
  (f (BitVec.ofInt 64 a) (BitVec.ofInt 64 b)).toInt

def shiftCount (type : String) (b : Int) : Nat := (b % if type = "J" then 64 else 32).toNat

def shiftFactor (type : String) (b : Int) : Int := (Nat.pow 2 (shiftCount type b) : Nat)

/-- Result in 64 bits of a whole-number operation; a division by zero has none. -/
def eval? (op : Arith) (type : String) (a b : Int) : Option Int :=
  match op with
  | add => some (Text.wrap64 (a + b))
  | sub => some (Text.wrap64 (a - b))
  | mul => some (Text.wrap64 (a * b))
  | div => if b = 0 then none else some (Text.wrap64 (a.tdiv b))
  | rem => if b = 0 then none else some (a.tmod b)
  | and => some (bitwise (· &&& ·) a b)
  | or => some (bitwise (· ||| ·) a b)
  | xor => some (bitwise (· ^^^ ·) a b)
  | shl => some (Text.wrap64 (a * shiftFactor type b))
  | shr =>
    if type = "J" then some (a / shiftFactor type b)
    else some (Int.bmod a 4294967296 / shiftFactor type b)
  | ushr =>
    if type = "J" then some (Text.wrap64 (a % 18446744073709551616 / shiftFactor type b))
    else some (a % 4294967296 / shiftFactor type b)
  | _ => none

end Arith

namespace Expr

/-- A folded expression, and whether anything was folded. -/
structure Folded where
  expr : Expr
  changed : Bool
  deriving Repr, Inhabited

def foldBinary (op : Arith) (type : String) (l r : Folded) : Folded :=
  let kept : Folded := ⟨binary op l.expr r.expr type, l.changed || r.changed⟩
  match l.expr, r.expr with
  | const _ a, const _ b =>
    if isIntegral type then
      match op.eval? type a b with
      | some n => ⟨const type (truncateTo type n), true⟩
      | none => kept
    else kept
  | _, _ => kept

def foldUnary (op : Arith) (type : String) (x : Folded) : Folded :=
  match x.expr with
  | const t n =>
    if isIntegral type && isIntegral t then
      let n := if op = .neg then Text.wrap64 (-n) else -n - 1
      ⟨const type (truncateTo type n), true⟩
    else ⟨unary op x.expr type, x.changed⟩
  | _ => ⟨unary op x.expr type, x.changed⟩

def foldCast (target : String) (check : Bool) (x : Folded) : Folded :=
  match x.expr with
  | const t n =>
    if !check && isIntegral t && isIntegral target then ⟨const target (truncateTo target n), true⟩
    else ⟨cast target x.expr check, x.changed⟩
  | _ => ⟨cast target x.expr check, x.changed⟩

def foldTestZero (op : Cond) (x : Folded) : Folded :=
  match x.expr with
  | compare a b _ _ => ⟨test op a b, true⟩
  | _ => ⟨testZero op x.expr, x.changed⟩

mutual

def fold : Expr → Folded
  | binary op l r type => foldBinary op type l.fold r.fold
  | unary op e type => foldUnary op type e.fold
  | cast target e check => foldCast target check e.fold
  | test op l r =>
    let l := l.fold
    let r := r.fold
    ⟨test op l.expr r.expr, l.changed || r.changed⟩
  | testZero op l => foldTestZero op l.fold
  | call k m args =>
    let (args, changed) := foldAll args
    ⟨call k m args, changed⟩
  | callOn k m r args =>
    let (args, changed) := foldAll args
    ⟨callOn k m r args, changed⟩
  | e => ⟨e, false⟩

def foldAll : List Expr → List Expr × Bool
  | [] => ([], false)
  | e :: es =>
    let x := e.fold
    let (xs, changed) := foldAll es
    (x.expr :: xs, x.changed || changed)

end

end Expr

def Test.fold (c : Test) : Test × Bool :=
  let x := c.toExpr.fold
  ((Test.ofExpr? x.expr).getD c, x.changed)

end RegCode
