import RegCode.Access
import RegCode.Instruction
import RegCode.TryTable

/-! Methods, fields and classes as they are loaded, with disassembly. -/
namespace RegCode

structure Method where
  owner : String
  name : String
  descriptor : String
  access : Access
  registers : Int
  index : Nat
  line : Nat
  code : List Instruction
  tries : List TryRange
  overlaps : List Int
  deriving DecidableEq, Repr, Inhabited

namespace Method

def hasCode (m : Method) : Bool := !m.code.isEmpty

def isStatic (m : Method) : Bool := m.access.isStatic

def isConstructor (m : Method) : Bool := m.name == "<init>" || m.name == "<clinit>"

def signature? (m : Method) : Option Descriptor.Signature := Descriptor.Signature.parse? m.descriptor

def paramTypes (m : Method) : List String := (m.signature?.map (·.params)).getD []

def returnType (m : Method) : String := (m.signature?.map (·.result)).getD "V"

def ins (m : Method) : Nat :=
  (if m.isStatic then 0 else 1) + sumOf Descriptor.size m.paramTypes

def fullName (m : Method) : String := m.owner ++ "->" ++ m.name ++ m.descriptor

def codeEnd (m : Method) : Int := (m.code.getLast?.map Instruction.next).getD 0

def searchOffset (code : Array Instruction) (offset : Int) (lo hi : Nat) : Nat :=
  if lo < hi then
    let mid := (lo + hi) / 2
    if (code[mid]?.any fun i => decide (offset ≤ i.offset)) then searchOffset code offset lo mid
    else searchOffset code offset (mid + 1) hi
  else lo
termination_by hi - lo

def positionAt? (code : Array Instruction) (offset : Int) : Option Nat :=
  let i := searchOffset code offset 0 code.size
  match code[i]? with
  | some inst => if inst.offset = offset then some i else none
  | none => none

def switchLines (t : SwitchTable) : List String :=
  (t.keys.zip t.targets).map fun (key, target) =>
    "        " ++ Text.intText key ++ " -> " ++ Text.offsetText target ++ "\n"

def arrayLine (a : ArrayData) : String :=
  "        width=" ++ Text.intText a.elementWidth ++ " [" ++
    " ".intercalate (a.values.map Text.intText) ++ "]\n"

def instructionLines (i : Instruction) : List String :=
  (Text.offsetText i.offset ++ ": " ++ i.text ++ "\n") ::
    match i.switch, i.array with
    | some t, _ => switchLines t
    | none, some a => [arrayLine a]
    | none, none => []

def tryLine (t : TryRange) : String :=
  "try " ++ Text.offsetText t.start ++ "-" ++ Text.offsetText t.stop ++
    String.join (t.handlers.map fun h =>
      " " ++ (if h.catchesAll then "<any>" else h.type) ++ "@" ++ Text.offsetText h.target) ++ "\n"

def disassembly (m : Method) : String :=
  "# " ++ m.fullName ++ " registers=" ++ Text.intText m.registers ++ " ins=" ++
    Text.natText m.ins ++ "\n" ++
    String.join (m.code.flatMap instructionLines) ++ String.join (m.tries.map tryLine)

end Method

structure Field where
  name : String
  type : String
  access : Access
  value : Option String
  deriving DecidableEq, Repr, Inhabited

structure Class where
  name : String
  access : Access
  super : String
  interfaces : List String
  sourceFile : Text.Bytes
  line : Nat
  fields : List Field
  methods : List Method
  deriving DecidableEq, Repr, Inhabited

namespace Class

def isInterface (c : Class) : Bool := c.access.isInterface

def outerName (c : Class) : String := Descriptor.outerName c.name

end Class

end RegCode
