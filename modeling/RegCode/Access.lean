/-! Access flags of classes, fields and methods: their assembly keywords and the modifiers that
source text shows. -/
namespace RegCode

structure Access where
  bits : UInt32
  deriving DecidableEq, Repr, Inhabited

namespace Access

def ofBits (n : Nat) : Access := ⟨n.toUInt32⟩

def empty : Access := ⟨0⟩

def union (a b : Access) : Access := ⟨a.bits ||| b.bits⟩

def meets (a : Access) (mask : UInt32) : Bool := a.bits &&& mask != 0

def staticBit : UInt32 := 0x8
def interfaceBit : UInt32 := 0x200
def abstractBit : UInt32 := 0x400

/-- Bit of a keyword; two keywords may share one. -/
def keyword? : String → Option UInt32
  | "public" => some 0x1
  | "private" => some 0x2
  | "protected" => some 0x4
  | "static" => some staticBit
  | "final" => some 0x10
  | "synchronized" => some 0x20
  | "volatile" => some 0x40
  | "bridge" => some 0x40
  | "transient" => some 0x80
  | "varargs" => some 0x80
  | "native" => some 0x100
  | "interface" => some interfaceBit
  | "abstract" => some abstractBit
  | "strictfp" => some 0x800
  | "synthetic" => some 0x1000
  | "annotation" => some 0x2000
  | "enum" => some 0x4000
  | "constructor" => some 0x10000
  | "declared-synchronized" => some 0x20
  | _ => none

def ofWords (words : List String) : Access :=
  ⟨(words.filterMap keyword?).foldl (· ||| ·) 0⟩

def isStatic (a : Access) : Bool := a.meets staticBit

def isInterface (a : Access) : Bool := a.meets interfaceBit

def wordsIn (a : Access) (table : List (UInt32 × String)) : List String :=
  (table.filter fun (bit, _) => a.meets bit).map Prod.snd

def shared : List (UInt32 × String) :=
  [(0x1, "public"), (0x2, "private"), (0x4, "protected"), (staticBit, "static"), (0x10, "final")]

def classModifiers (a : Access) : List String :=
  a.wordsIn (shared ++ if a.isInterface then [] else [(abstractBit, "abstract")])

def fieldModifiers (a : Access) : List String :=
  a.wordsIn (shared ++ [(0x40, "volatile"), (0x80, "transient")])

def methodModifiers (a : Access) : List String :=
  a.wordsIn (shared ++ [(abstractBit, "abstract"), (0x20, "synchronized"), (0x100, "native"),
    (0x800, "strictfp")])

end Access

end RegCode
