/-! Instruction families and the variants within them: comparisons, arithmetic and kinds of
calls. -/
namespace RegCode

/-- Instructions of one family agree on what they read, define and may raise. -/
inductive Family where
  | nop | move | moveResult | moveException | returnVoid | return
  | const | constWide | constString | constClass
  | monitorEnter | monitorExit
  | checkCast | instanceOf | arrayLength | newInstance | newArray | filledNewArray
  | fillArrayData | throw
  | goto | packedSwitch | sparseSwitch | cmp | ifTest | ifZero
  | aget | aput | iget | iput | sget | sput
  | invoke
  | unary | convert | binary | binaryLit
  | unknown (code : Nat)
  deriving DecidableEq, Repr, Inhabited

namespace Family

def ordered : List Family :=
  [nop, move, moveResult, moveException, returnVoid, «return», const, constWide, constString,
   constClass, monitorEnter, monitorExit, checkCast, instanceOf, arrayLength, newInstance,
   newArray, filledNewArray, fillArrayData, throw, goto, packedSwitch, sparseSwitch, cmp, ifTest,
   ifZero, aget, aput, iget, iput, sget, sput, invoke, unary, convert, binary, binaryLit]

def code : Family → Nat
  | unknown n => n
  | f => ordered.idxOf f

def ofCode (n : Nat) : Family := ordered[n]?.getD (unknown n)

def name : Family → String
  | nop => "nop"
  | move => "move"
  | moveResult => "move-result"
  | moveException => "move-exception"
  | returnVoid => "return-void"
  | «return» => "return"
  | const => "const"
  | constWide => "const-wide"
  | constString => "const-string"
  | constClass => "const-class"
  | monitorEnter => "monitor-enter"
  | monitorExit => "monitor-exit"
  | checkCast => "check-cast"
  | instanceOf => "instance-of"
  | arrayLength => "array-length"
  | newInstance => "new-instance"
  | newArray => "new-array"
  | filledNewArray => "filled-new-array"
  | fillArrayData => "fill-array-data"
  | throw => "throw"
  | goto => "goto"
  | packedSwitch => "packed-switch"
  | sparseSwitch => "sparse-switch"
  | cmp => "cmp"
  | ifTest => "if"
  | ifZero => "ifz"
  | aget => "aget"
  | aput => "aput"
  | iget => "iget"
  | iput => "iput"
  | sget => "sget"
  | sput => "sput"
  | invoke => "invoke"
  | unary => "unary"
  | convert => "convert"
  | binary => "binary"
  | binaryLit => "binary-lit"
  | unknown n => "op(" ++ toString n ++ ")"

def isTerminator : Family → Bool
  | goto | «return» | returnVoid | throw => true
  | _ => false

def isBranch : Family → Bool
  | goto | ifTest | ifZero | packedSwitch | sparseSwitch => true
  | _ => false

def isSwitch : Family → Bool
  | packedSwitch | sparseSwitch => true
  | _ => false

end Family

/-- Comparison of two values, or of one with zero. -/
inductive Cond where
  | eq | ne | lt | ge | gt | le
  deriving DecidableEq, Repr, Inhabited

namespace Cond

def all : List Cond := [eq, ne, lt, ge, gt, le]

def name : Cond → String
  | eq => "eq" | ne => "ne" | lt => "lt" | ge => "ge" | gt => "gt" | le => "le"

def symbol : Cond → String
  | eq => "==" | ne => "!=" | lt => "<" | ge => ">=" | gt => ">" | le => "<="

def negate : Cond → Cond
  | eq => ne | ne => eq | lt => ge | ge => lt | gt => le | le => gt

@[simp] theorem negate_negate (c : Cond) : c.negate.negate = c := by cases c <;> rfl

def ofName? (s : String) : Option Cond := all.find? (·.name == s)

end Cond

/-- Arithmetic and bitwise operations; `rsub` subtracts its first operand from its second. -/
inductive Arith where
  | add | sub | mul | div | rem | and | or | xor | shl | shr | ushr | rsub | neg | not
  deriving DecidableEq, Repr, Inhabited

namespace Arith

def all : List Arith := [add, sub, mul, div, rem, and, or, xor, shl, shr, ushr, rsub, neg, not]

def name : Arith → String
  | add => "add" | sub => "sub" | mul => "mul" | div => "div" | rem => "rem"
  | and => "and" | or => "or" | xor => "xor" | shl => "shl" | shr => "shr" | ushr => "ushr"
  | rsub => "rsub" | neg => "neg" | not => "not"

def symbol : Arith → String
  | add => "+" | sub => "-" | mul => "*" | div => "/" | rem => "%"
  | and => "&" | or => "|" | xor => "^" | shl => "<<" | shr => ">>" | ushr => ">>>"
  | rsub => "-" | neg => "-" | not => "~"

def canThrow (a : Arith) (type : String) : Bool :=
  (a == div || a == rem) && (type == "I" || type == "J")

def ofName? (s : String) : Option Arith := all.find? (·.name == s)

end Arith

inductive InvokeKind where
  | virtual | super | direct | static | interface
  deriving DecidableEq, Repr, Inhabited

namespace InvokeKind

def all : List InvokeKind := [virtual, super, direct, static, interface]

def name : InvokeKind → String
  | virtual => "virtual" | super => "super" | direct => "direct" | static => "static"
  | interface => "interface"

def ofName? (s : String) : Option InvokeKind := all.find? (·.name == s)

end InvokeKind

end RegCode
