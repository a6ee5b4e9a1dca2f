import RegCode.Descriptor
import RegCode.Operation
import RegCode.Text.Quoted

/-! Decoded instructions: what each one reads, defines and branches to, and its assembly text. -/
namespace RegCode

open Text (Bytes)

/-- What the mnemonic alone settles about an instruction. -/
structure Shape where
  family : Family := .nop
  width : Int := 1
  type : String := ""
  toType : String := ""
  cond : Cond := .eq
  arith : Arith := .add
  invoke : InvokeKind := .virtual
  twoAddress : Bool := false
  range : Bool := false
  bias : String := ""
  deriving DecidableEq, Repr, Inhabited

structure FieldRef where
  owner : String
  name : String
  type : String
  deriving DecidableEq, Repr, Inhabited

def FieldRef.text (f : FieldRef) : String := f.owner ++ "->" ++ f.name ++ ":" ++ f.type

structure MethodRef where
  owner : String
  name : String
  params : List String
  result : String
  deriving DecidableEq, Repr, Inhabited

namespace MethodRef

def descriptor (m : MethodRef) : String := Descriptor.Signature.text ⟨m.params, m.result⟩

def text (m : MethodRef) : String := m.owner ++ "->" ++ m.name ++ m.descriptor

end MethodRef

/-- Keys and target offsets of a switch, position by position. -/
structure SwitchTable where
  keys : List Int
  targets : List Int
  deriving DecidableEq, Repr, Inhabited

structure ArrayData where
  elementWidth : Int
  values : List Int
  deriving DecidableEq, Repr, Inhabited

/-- An instruction with its operands. Registers stand in the order of the assembly text; a wide
value names its low register only. -/
structure Instruction extends Shape where
  mnemonic : String := ""
  offset : Int := 0
  line : Nat := 0
  regs : List Int := []
  literal : Int := 0
  str : Bytes := []
  ref : String := ""
  field : Option FieldRef := none
  method : Option MethodRef := none
  target : Int := 0
  switch : Option SwitchTable := none
  array : Option ArrayData := none
  payload : String := ""
  deriving DecidableEq, Repr, Inhabited

namespace Instruction

def next (i : Instruction) : Int := Text.wrap64 (i.offset + i.width)

def isWide (i : Instruction) : Bool :=
  match i.family with
  | .cmp => false
  | .convert => i.toType == "J" || i.toType == "D"
  | _ => i.type == "J" || i.type == "D"

def definedRegister? (i : Instruction) : Option Int :=
  match i.family with
  | .move | .moveResult | .moveException | .const | .constWide | .constString | .constClass
  | .checkCast | .instanceOf | .arrayLength | .newInstance | .newArray | .cmp | .aget | .iget
  | .sget | .unary | .convert | .binary | .binaryLit => i.regs.head?
  | _ => none

def regsBetween (i : Instruction) (lo hi : Nat) : List Int := (i.regs.take hi).drop lo

def paramRegisters : List String → List Int → List Int
  | [], _ => []
  | _ :: _, [] => []
  | p :: ps, r :: rs => r :: paramRegisters ps (rs.drop (Descriptor.size p - 1))

def argumentRegisters (i : Instruction) : List Int :=
  match i.method with
  | none => i.regs
  | some m =>
    if i.invoke = .static then paramRegisters m.params i.regs
    else i.regs.take 1 ++ paramRegisters m.params (i.regs.drop 1)

/-- Registers that the instruction reads, in order of evaluation, with repetitions. -/
def usedRegisters (i : Instruction) : List Int :=
  match i.family with
  | .move | .instanceOf | .arrayLength | .newArray | .iget | .unary | .convert | .binaryLit =>
    i.regsBetween 1 2
  | .return | .monitorEnter | .monitorExit | .checkCast | .fillArrayData | .throw
  | .packedSwitch | .sparseSwitch | .ifZero | .sput => i.regsBetween 0 1
  | .ifTest | .iput => i.regsBetween 0 2
  | .cmp | .aget => i.regsBetween 1 3
  | .aput =>
    match i.regsBetween 0 3 with
    | [value, array, index] => [array, index, value]
    | rs => rs
  | .binary => if i.twoAddress then i.regsBetween 0 2 else i.regsBetween 1 3
  | .invoke => i.argumentRegisters
  | .filledNewArray => i.regs
  | _ => []

def canThrow (i : Instruction) : Bool :=
  match i.family with
  | .constString | .constClass | .monitorEnter | .monitorExit | .checkCast | .instanceOf
  | .arrayLength | .newInstance | .newArray | .filledNewArray | .fillArrayData | .throw | .aget
  | .aput | .iget | .iput | .sget | .sput | .invoke => true
  | .binary | .binaryLit => i.arith.canThrow i.type
  | _ => false

def targets (i : Instruction) : List Int :=
  match i.family with
  | .goto | .ifTest | .ifZero => [i.target]
  | .packedSwitch | .sparseSwitch => (i.switch.map SwitchTable.targets).getD []
  | _ => []

def registerText (r : Int) : String := "v" ++ Text.intText r

def operandTexts (i : Instruction) : List String :=
  let regs := i.regs.map registerText
  let listed := match i.family with
    | .invoke | .filledNewArray => ["\x7b" ++ ", ".intercalate regs ++ "\x7d"]
    | _ => regs
  let rest := match i.family with
    | .const | .constWide | .binaryLit => [Text.literalText i.literal]
    | .constString => [Text.Quoted.ofBytes i.str]
    | .constClass | .checkCast | .instanceOf | .newInstance | .newArray | .filledNewArray => [i.ref]
    | .iget | .iput | .sget | .sput => (i.field.map FieldRef.text).toList
    | .invoke => (i.method.map MethodRef.text).toList
    | .goto | .ifTest | .ifZero => ["@" ++ Text.offsetText i.target]
    | _ => []
  listed ++ rest

def text (i : Instruction) : String :=
  match i.operandTexts with
  | [] => i.mnemonic
  | ops => i.mnemonic ++ " " ++ ", ".intercalate ops

end Instruction

end RegCode
