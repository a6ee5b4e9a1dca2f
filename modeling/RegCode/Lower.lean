import RegCode.Method
import RegCode.Stmt.Constructor

/-! Instructions as statements over the initial variables of their registers. -/
namespace RegCode

inductive LowerCause where
  | strayResult
  | noMethod
  | noReceiver
  | argumentCount
  | registers (mnemonic : String) (count : Nat)
  | noField
  | unsupported (mnemonic : String)
  | noResultRegister
  deriving DecidableEq, Repr

def LowerCause.message : LowerCause → String
  | strayResult => "move-result without a preceding invoke"
  | noMethod => "invoke without method reference"
  | noReceiver => "instance invoke without receiver"
  | argumentCount => "argument count does not match descriptor"
  | registers mnemonic n => mnemonic ++ " needs " ++ Text.natText n ++ " registers"
  | noField => "field access without reference"
  | unsupported mnemonic => "unsupported opcode " ++ mnemonic
  | noResultRegister => "move-result without a register"

structure LowerFault where
  offset : Int
  cause : LowerCause
  deriving DecidableEq, Repr

def LowerFault.message (f : LowerFault) : String :=
  "cannot lower instruction at " ++ Text.offsetText f.offset ++ ": " ++ f.cause.message

namespace Lower

abbrev Lowering := StateT VarTable (Except LowerFault)

def reject {α : Type} (i : Instruction) (cause : LowerCause) : Lowering α :=
  fun _ => .error ⟨i.offset, cause⟩

def varOf (r : Int) : Lowering VarId := fun t =>
  let (t, v) := t.register r
  .ok (v, t)

def read (r : Int) : Lowering Expr := do return .var (← varOf r)

def readAll : List Int → Lowering (List Expr)
  | [] => pure []
  | r :: rs => do
    let e ← read r
    let es ← readAll rs
    pure (e :: es)

def caughtType (m : Method) (offset : Int) : String :=
  match (m.tries.flatMap (·.handlers)).filter (·.target == offset) with
  | [] => ""
  | h :: hs =>
    (hs.foldl (fun type k => if type = k.type then type else "Ljava/lang/Throwable;") h.type)

def assign (r : Int) (value : Lowering Expr) : Lowering Action := do
  let v ← varOf r
  let e ← value
  pure (.assign v e false)

def leastRegisters (i : Instruction) : Nat :=
  match i.family with
  | .move | .instanceOf | .arrayLength | .newArray | .ifTest | .iget | .iput | .unary | .convert
  | .binaryLit => 2
  | .cmp | .aget | .aput => 3
  | .binary => if i.twoAddress then 2 else 3
  | _ => 1

def fieldOf (i : Instruction) : Lowering FieldRef :=
  match i.field with
  | some f => pure f
  | none => reject i .noField

def call (i : Instruction) : Lowering Expr :=
  if i.family = .filledNewArray then do return .filled i.ref (← readAll i.regs)
  else
    match i.method with
    | none => reject i .noMethod
    | some m =>
      if i.invoke = .static then
        let args := i.argumentRegisters
        if args.length ≠ m.params.length then reject i .argumentCount
        else do return .call i.invoke m (← readAll args)
      else
        match i.argumentRegisters with
        | [] => reject i .noReceiver
        | r :: args => do
          let receiver ← read r
          if args.length ≠ m.params.length then reject i .argumentCount
          else return .callOn i.invoke m receiver (← readAll args)

/-- The action of an instruction with its first three registers, as far as it has them. -/
def operate (m : Method) (i : Instruction) (a b c : Int) : Lowering Action := do
  match i.family with
  | .move => assign a (read b)
  | .moveException => assign a (pure (.caught (caughtType m i.offset)))
  | .return => return .ret (some (← read a))
  | .const => assign a (pure (.const "I" i.literal))
  | .constWide => assign a (pure (.const "J" i.literal))
  | .constString => assign a (pure (.str i.str))
  | .constClass => assign a (pure (.classRef i.ref))
  | .monitorEnter => return .monitor true (← read a)
  | .monitorExit => return .monitor false (← read a)
  | .checkCast => assign a (do return .cast i.ref (← read a) true)
  | .instanceOf => assign a (do return .instanceOf (← read b) i.ref)
  | .arrayLength => assign a (do return .length (← read b))
  | .newInstance => assign a (pure (.newObject i.ref [] false))
  | .newArray => assign a (do return .newArray i.ref (← read b))
  | .fillArrayData => return .fill (← read a) ((i.array.map ArrayData.values).getD [])
  | .throw => return .throw (← read a)
  | .packedSwitch | .sparseSwitch => return .switch (← read a)
  | .cmp => assign a (do
      let l ← read b
      let r ← read c
      pure (.compare l r i.type i.bias))
  | .ifTest =>
    let l ← read a
    let r ← read b
    pure (.branch ⟨i.cond, l, some r⟩)
  | .ifZero => return .branch ⟨i.cond, ← read a, none⟩
  | .aget => assign a (do
      let array ← read b
      let index ← read c
      pure (.element array index i.type))
  | .aput =>
    let array ← read b
    let index ← read c
    let value ← read a
    pure (.storeElement array index value)
  | .iget =>
    let f ← fieldOf i
    assign a (do return .field f (← read b))
  | .iput =>
    let f ← fieldOf i
    let object ← read b
    let value ← read a
    pure (.storeField f (some object) value)
  | .sget =>
    let f ← fieldOf i
    assign a (pure (.staticField f))
  | .sput =>
    let f ← fieldOf i
    return .storeField f none (← read a)
  | .unary => assign a (do return .unary i.arith (← read b) i.type)
  | .convert => assign a (do return .cast i.toType (← read b) false)
  | .binary =>
    assign a (do
      let (x, y) := if i.twoAddress then (a, b) else (b, c)
      let l ← read x
      let r ← read y
      pure (.binary i.arith l r i.type))
  | .binaryLit =>
    assign a (do
      let e ← read b
      let lit := Expr.const "I" i.literal
      pure (if i.arith = .rsub then .binary .sub lit e "I" else .binary i.arith e lit "I"))
  | _ => reject i (.unsupported i.mnemonic)

def single (m : Method) (i : Instruction) : Lowering (Option Action) :=
  match i.family with
  | .nop | .goto => pure none
  | .returnVoid => pure (some (.ret none))
  | _ =>
    if i.regs.length < leastRegisters i then reject i (.registers i.mnemonic (leastRegisters i))
    else do
      let reg (n : Nat) := i.regs[n]?.getD 0
      return some (← operate m i (reg 0) (reg 1) (reg 2))

/-- A block; a call and the result after it make one assignment. -/
def actions (m : Method) : List Instruction → Lowering (List Action)
  | [] => pure []
  | i :: rest =>
    match i.family with
    | .invoke | .filledNewArray => do
      let e ← call i
      match rest with
      | next :: rest =>
        if next.family = .moveResult then
          match next.regs with
          | [] => reject next .noResultRegister
          | r :: _ =>
            let v ← varOf r
            let more ← actions m rest
            pure (.assign v e false :: more)
        else
          let more ← actions m (next :: rest)
          pure (.invoke e :: more)
      | [] => pure [.invoke e]
    | .moveResult => reject i .strayResult
    | _ => do
      let a ← single m i
      let more ← actions m rest
      pure (a.toList ++ more)

def block (m : Method) (insts : List Instruction) : Lowering (List Stmt) := do
  return Stmt.foldConstructors ((← actions m insts).map fun a => ⟨0, a⟩)

end Lower

end RegCode
