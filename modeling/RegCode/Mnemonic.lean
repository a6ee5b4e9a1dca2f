import RegCode.Instruction
import RegCode.Text.Lowercase

/-! The instruction set: every mnemonic with the shape that it stands for. -/
namespace RegCode.Mnemonic

def moves : List (String × Shape) :=
  [("", "I"), ("-wide", "J"), ("-object", "L")].flatMap fun (suffix, type) =>
    [("move" ++ suffix, { family := .move, width := 1, type }),
     ("move" ++ suffix ++ "/from16", { family := .move, width := 2, type }),
     ("move" ++ suffix ++ "/16", { family := .move, width := 3, type }),
     ("move-result" ++ suffix, { family := .moveResult, width := 1, type }),
     ("return" ++ suffix, { family := .return, width := 1, type })]

def constants : List (String × Shape) :=
  [("const/4", { family := .const, width := 1, type := "I" }),
   ("const/16", { family := .const, width := 2, type := "I" }),
   ("const", { family := .const, width := 3, type := "I" }),
   ("const/high16", { family := .const, width := 2, type := "I" }),
   ("const-wide/16", { family := .constWide, width := 2, type := "J" }),
   ("const-wide/32", { family := .constWide, width := 3, type := "J" }),
   ("const-wide", { family := .constWide, width := 5, type := "J" }),
   ("const-wide/high16", { family := .constWide, width := 2, type := "J" }),
   ("const-string", { family := .constString, width := 2, type := "Ljava/lang/String;" }),
   ("const-string/jumbo", { family := .constString, width := 3, type := "Ljava/lang/String;" }),
   ("const-class", { family := .constClass, width := 2, type := "Ljava/lang/Class;" })]

def objects : List (String × Shape) :=
  [("nop", { family := .nop, width := 1 }),
   ("move-exception", { family := .moveException, width := 1, type := "L" }),
   ("return-void", { family := .returnVoid, width := 1, type := "V" }),
   ("monitor-enter", { family := .monitorEnter, width := 1 }),
   ("monitor-exit", { family := .monitorExit, width := 1 }),
   ("check-cast", { family := .checkCast, width := 2 }),
   ("instance-of", { family := .instanceOf, width := 2, type := "Z" }),
   ("array-length", { family := .arrayLength, width := 1, type := "I" }),
   ("new-instance", { family := .newInstance, width := 2 }),
   ("new-array", { family := .newArray, width := 2 }),
   ("filled-new-array", { family := .filledNewArray, width := 3 }),
   ("filled-new-array/range", { family := .filledNewArray, width := 3, range := true }),
   ("fill-array-data", { family := .fillArrayData, width := 3 }),
   ("throw", { family := .throw, width := 1 })]

def branches : List (String × Shape) :=
  [("goto", { family := .goto, width := 1 }),
   ("goto/16", { family := .goto, width := 2 }),
   ("goto/32", { family := .goto, width := 3 }),
   ("packed-switch", { family := .packedSwitch, width := 3 }),
   ("sparse-switch", { family := .sparseSwitch, width := 3 }),
   ("cmpl-float", { family := .cmp, width := 2, type := "F", bias := "l" }),
   ("cmpg-float", { family := .cmp, width := 2, type := "F", bias := "g" }),
   ("cmpl-double", { family := .cmp, width := 2, type := "D", bias := "l" }),
   ("cmpg-double", { family := .cmp, width := 2, type := "D", bias := "g" }),
   ("cmp-long", { family := .cmp, width := 2, type := "J" })] ++
  Cond.all.flatMap fun cond =>
    [("if-" ++ cond.name, { family := .ifTest, width := 2, cond }),
     ("if-" ++ cond.name ++ "z", { family := .ifZero, width := 2, cond })]

def accesses : List (String × Shape) :=
  [("", "I"), ("-wide", "J"), ("-object", "L"), ("-boolean", "Z"), ("-byte", "B"), ("-char", "C"),
   ("-short", "S")].flatMap fun (suffix, type) =>
    [("aget" ++ suffix, { family := .aget, width := 2, type }),
     ("aput" ++ suffix, { family := .aput, width := 2, type }),
     ("iget" ++ suffix, { family := .iget, width := 2, type }),
     ("iput" ++ suffix, { family := .iput, width := 2, type }),
     ("sget" ++ suffix, { family := .sget, width := 2, type }),
     ("sput" ++ suffix, { family := .sput, width := 2, type })]

def calls : List (String × Shape) :=
  InvokeKind.all.flatMap fun invoke =>
    [("invoke-" ++ invoke.name, { family := .invoke, width := 3, invoke }),
     ("invoke-" ++ invoke.name ++ "/range", { family := .invoke, width := 3, invoke, range := true })]

def numeric : List (String × String) :=
  [("int", "I"), ("long", "J"), ("float", "F"), ("double", "D")]

def isWhole (type : String) : Bool := type == "I" || type == "J"

def unaries : List (String × Shape) :=
  numeric.flatMap fun (name, type) =>
    [("neg-" ++ name, ({ family := .unary, width := 1, type, arith := .neg } : Shape))] ++
    (if isWhole type then
      [("not-" ++ name, ({ family := .unary, width := 1, type, arith := .not } : Shape))] else [])

def conversions : List (String × Shape) :=
  (numeric.flatMap fun (name, type) =>
    (numeric.filter fun (_, toType) => type != toType).map fun (toName, toType) =>
      (name ++ "-to-" ++ toName, ({ family := .convert, width := 1, type, toType } : Shape))) ++
  [("byte", "B"), ("char", "C"), ("short", "S")].map fun (toName, toType) =>
    ("int-to-" ++ toName, { family := .convert, width := 1, type := "I", toType })

def binaryOps : List Arith := [.add, .sub, .mul, .div, .rem, .and, .or, .xor, .shl, .shr, .ushr]

def binaries : List (String × Shape) :=
  numeric.flatMap fun (name, type) =>
    (if isWhole type then binaryOps else binaryOps.take 5).flatMap fun arith =>
      [(arith.name ++ "-" ++ name, { family := .binary, width := 2, type, arith }),
       (arith.name ++ "-" ++ name ++ "/2addr",
        { family := .binary, width := 1, type, arith, twoAddress := true })]

def literalBinaries : List (String × Shape) :=
  let shape (arith : Arith) : Shape := { family := .binaryLit, width := 2, type := "I", arith }
  (([.add, .mul, .div, .rem, .and, .or, .xor] : List Arith).map fun a =>
    (a.name ++ "-int/lit16", shape a)) ++
  (([.add, .mul, .div, .rem, .and, .or, .xor, .shl, .shr, .ushr] : List Arith).map fun a =>
    (a.name ++ "-int/lit8", shape a)) ++
  [("rsub-int", shape .rsub), ("rsub-int/lit8", shape .rsub)]

def table : List (String × Shape) :=
  moves ++ constants ++ objects ++ branches ++ accesses ++ calls ++ unaries ++ conversions ++
  binaries ++ literalBinaries

def shape? (name : String) : Option Shape := table.lookup (Text.lower name)

def template? (name : String) : Option Instruction :=
  (shape? name).map fun s => { s with mnemonic := name }

end RegCode.Mnemonic
