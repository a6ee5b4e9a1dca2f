import RegCode.Method

/-! Basic blocks: straight runs of instructions, cut at branch targets, after branches, and at the
bounds and handlers of try ranges. -/
namespace RegCode

structure Block where
  id : Nat
  start : Int
  stop : Int
  insts : List Instruction
  targets : List Int
  fall : Option Int
  deriving DecidableEq, Repr, Inhabited

namespace Block

def last? (b : Block) : Option Instruction := b.insts.getLast?

def name (b : Block) : String :=
  "B" ++ Text.natText b.id ++ "[" ++ Text.offsetText b.start ++ "-" ++ Text.offsetText b.stop ++ ")"

def leaders (m : Method) : List Int :=
  (m.code.head?.map (·.offset)).toList ++
  (m.code.flatMap fun i =>
    i.targets ++ if i.family.isBranch || i.family.isTerminator then [i.next] else []) ++
  m.tries.flatMap fun t => t.start :: t.stop :: t.handlers.map (·.target)

def starts (m : Method) : List Int :=
  let code := m.code.toArray
  (TryTable.ascending (leaders m)).filter fun off =>
    match Method.positionAt? code off >>= (code[·]?) with
    | some i => i.family != .moveResult
    | none => false

def build (m : Method) (code : Array Instruction) (id : Nat) (start stop : Int) : Block :=
  let insts := match Method.positionAt? code start with
    | some i => (code.toList.drop i).takeWhile fun inst => decide (inst.offset < stop)
    | none => []
  let falls := (insts.getLast?.any fun i => !i.family.isTerminator) && decide (stop < m.codeEnd)
  { id, start, stop, insts
    targets := (insts.getLast?.map Instruction.targets).getD []
    fall := if falls then some stop else none }

def buildAll (m : Method) (code : Array Instruction) : Nat → List Int → List Block
  | _, [] => []
  | id, [start] => [build m code id start m.codeEnd]
  | id, start :: stop :: rest => build m code id start stop :: buildAll m code (id + 1) (stop :: rest)

def split (m : Method) : List Block :=
  if m.hasCode then buildAll m m.code.toArray 0 (starts m) else []

end Block

end RegCode
