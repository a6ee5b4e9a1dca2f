import RegCode.Assembly.Fault
import RegCode.Assembly.Line
import RegCode.Method
import RegCode.Mnemonic

/-! Method bodies. A first pass over the lines places instructions, labels, payloads and catch
directives; a second decodes operands, when every label is known. -/
namespace RegCode.Assembly

inductive PayloadKind where
  | packedSwitch | sparseSwitch | arrayData
  deriving DecidableEq, Repr

def PayloadKind.name : PayloadKind → String
  | packedSwitch => "packed-switch"
  | sparseSwitch => "sparse-switch"
  | arrayData => "array-data"

def PayloadKind.ofDirective? : String → Option PayloadKind
  | ".packed-switch" => some .packedSwitch
  | ".sparse-switch" => some .sparseSwitch
  | ".array-data" => some .arrayData
  | _ => none

/-- Data that an instruction refers to by label. -/
structure Payload where
  kind : PayloadKind
  line : Nat
  first : Int := 0
  keys : List Int := []
  labels : List String := []
  width : Int := 0
  values : List Int := []
  deriving DecidableEq, Repr

/-- An instruction in its place, with the text of its operands. -/
structure Placed where
  inst : Instruction
  operands : List String
  deriving DecidableEq, Repr

structure CatchLine where
  type : String
  start : String
  stop : String
  handler : String
  line : Nat
  deriving DecidableEq, Repr

/-- A method while its body is read. Lists grow at the front; of two entries of one name the front
one counts. -/
structure Draft where
  method : Method
  registers : Int := 0
  locals : Option Int := none
  placed : List Placed := []
  labels : List (String × Int) := []
  payloads : List (String × Payload) := []
  catches : List CatchLine := []
  offset : Int := 0
  waiting : List String := []
  deriving Repr

namespace Draft

def bindLabels (d : Draft) : Draft :=
  { d with labels := d.waiting.foldl (fun ls name => (name, d.offset) :: ls) d.labels, waiting := [] }

def place (d : Draft) (line : Nat) (inst : Instruction) (ops : List String) : Draft :=
  let d := d.bindLabels
  { d with
    placed := ⟨{ inst with offset := d.offset, line }, ops⟩ :: d.placed
    offset := d.offset + inst.width }

def addPayload (d : Draft) (names : List String) (p : Payload) : Draft :=
  { d with payloads := names.foldl (fun ps name => (name, p) :: ps) d.payloads }

def addCatch (d : Draft) (line : Nat) (head rest : String) : Noting Draft :=
  let (type, rest) := if head = ".catch" then splitHead rest else ("", rest)
  match Text.cutAtChar? '\x7b' rest with
  | none => do note line (.catchDirective head); pure d
  | some (before, inner) =>
    match before.toList.contains '\x7d', Text.cutAtChar? '\x7d' inner with
    | false, some (range, after) =>
      match Text.cut? ".." range with
      | none => do note line (.catchRange head); pure d
      | some (a, b) =>
        let label s := Text.stripStart ":" (Text.trim s)
        pure { d with catches := ⟨type, label a, label b, label after, line⟩ :: d.catches }
    | _, _ => do note line (.catchDirective head); pure d

end Draft

def readCount (line : Nat) (cause : ReadCause) (s : String) : Noting Int := do
  let r := Text.readSigned s
  if r.ok?.isNone then note line cause
  pure r.orBound

def openPayload (line : Nat) (kind : PayloadKind) (rest : String) : Noting Payload := do
  match kind with
  | .packedSwitch => pure { kind, line, first := ← noteLiteral line rest }
  | .sparseSwitch => pure { kind, line }
  | .arrayData => pure { kind, line, width := ← readCount line (.arrayWidth rest) rest }

def noteLiterals (line : Nat) : List String → Noting (List Int)
  | [] => pure []
  | s :: rest => do
    let v ← noteLiteral line s
    let vs ← noteLiterals line rest
    pure (v :: vs)

/-- One line of a payload. -/
def Payload.addLine (p : Payload) (l : Line) : Noting Payload :=
  match p.kind with
  | .packedSwitch => pure { p with labels := p.labels ++ [Text.stripStart ":" l.text] }
  | .sparseSwitch =>
    match Text.cut? "->" l.text with
    | none => do note l.number (.switchEntry l.text); pure p
    | some (key, label) => do
      let k ← noteLiteral l.number key
      pure { p with
        keys := p.keys ++ [k]
        labels := p.labels ++ [Text.stripStart ":" (Text.trim label)] }
  | .arrayData => do
    let vs ← noteLiterals l.number (Text.words l.text)
    pure { p with values := p.values ++ vs }

/-- What operands are decoded against. -/
structure Scope where
  registers : Int
  ins : Nat
  labels : List (String × Int)
  payloads : List (String × Payload)

namespace Scope

def register (s : Scope) (line : Nat) (text : String) : Noting Int :=
  let number? := match text.toList with
    | [] => none
    | letter :: digits => do
      let n ← (Text.readSigned (String.ofList digits)).ok?
      if letter = 'v' then some n
      else if letter = 'p' then some (Text.wrap64 (s.registers - s.ins + n))
      else none
  match number? with
  | some n => pure n
  | none => do note line (.register text); pure 0

def registerAll (s : Scope) (line : Nat) : List String → Noting (List Int)
  | [] => pure []
  | text :: rest => do
    let r ← s.register line text
    let rs ← s.registerAll line rest
    pure (r :: rs)

def label (s : Scope) (line : Nat) (text : String) : Noting Int :=
  let name := Text.stripStart ":" text
  match s.labels.lookup name with
  | some off => pure off
  | none => do note line (.label name); pure 0

def labelAll (s : Scope) (line : Nat) : List String → Noting (List Int)
  | [] => pure []
  | text :: rest => do
    let l ← s.label line text
    let ls ← s.labelAll line rest
    pure (l :: ls)

def payload? (s : Scope) (kind : PayloadKind) (name : String) : Option Payload :=
  (s.payloads.lookup name).filter (·.kind == kind)

def fieldRef (line : Nat) (text : String) : Noting (Option FieldRef) :=
  match splitMember? text with
  | some (owner, name, rest) =>
    match Text.stripStart? ":" rest with
    | some type => pure (some ⟨owner, name, type⟩)
    | none => do note line (.fieldReference text); pure none
  | none => do note line (.fieldReference text); pure none

def methodRef (line : Nat) (text : String) : Noting (Option MethodRef) :=
  match splitMember? text with
  | none => do note line (.methodReference text); pure none
  | some (owner, name, rest) =>
    match Descriptor.Signature.parse? rest with
    | none => do note line (.methodDescriptor rest); pure none
    | some sig => pure (some ⟨owner, name, sig.params, sig.result⟩)

def leading (s : Scope) (i : Instruction) (n : Nat) (ops : List String) :
    Noting (Instruction × List String) :=
  if ops.length < n then do
    note i.line (.operandCount i.mnemonic n)
    pure (i, [])
  else do
    let rs ← s.registerAll i.line (ops.take n)
    pure ({ i with regs := rs }, ops.drop n)

def listed (s : Scope) (i : Instruction) (ops : List String) : Noting Instruction :=
  match ops with
  | [] => do note i.line (.listOperand i.mnemonic); pure i
  | list :: _ =>
    match readRegisterList list with
    | .error f => do note i.line (.literal f); pure i
    | .ok names => do
      let rs ← s.registerAll i.line names
      pure { i with regs := rs }

def switchTable (s : Scope) (i : Instruction) (kind : PayloadKind) : Noting Instruction :=
  match s.payload? kind i.payload with
  | none => do note i.line (.payload kind.name i.payload); pure i
  | some p => do
    let targets ← s.labelAll p.line p.labels
    let keys := match kind with
      | .packedSwitch => (List.range p.labels.length).map fun n => Text.wrap64 (p.first + (n : Nat))
      | _ => p.keys
    pure { i with switch := some ⟨keys, targets⟩ }

/-- Operands by family. -/
def decode (s : Scope) (p : Placed) : Noting Instruction := do
  let i := p.inst
  let ops := p.operands
  match i.family with
  | .nop | .returnVoid | .unknown _ => pure i
  | .moveResult | .moveException | .return | .monitorEnter | .monitorExit | .throw =>
    return (← s.leading i 1 ops).1
  | .move | .arrayLength | .unary | .convert => return (← s.leading i 2 ops).1
  | .cmp | .aget | .aput => return (← s.leading i 3 ops).1
  | .binary => return (← s.leading i (if i.twoAddress then 2 else 3) ops).1
  | .const | .constWide =>
    match ← s.leading i 1 ops with
    | (i, lit :: _) => pure { i with literal := ← noteLiteral i.line lit }
    | (i, []) => pure i
  | .binaryLit =>
    match ← s.leading i 2 ops with
    | (i, lit :: _) => pure { i with literal := ← noteLiteral i.line lit }
    | (i, []) => pure i
  | .constString =>
    match ← s.leading i 1 ops with
    | (i, lit :: _) =>
      match readString lit with
      | .ok bs => pure { i with str := bs }
      | .error f => do note i.line (.literal f); pure i
    | (i, []) => pure i
  | .constClass =>
    match ← s.leading i 1 ops with
    | (i, ref :: _) => pure { i with ref }
    | (i, []) => pure i
  | .checkCast | .newInstance =>
    match ← s.leading i 1 ops with
    | (i, ref :: _) => pure { i with ref, type := ref }
    | (i, []) => pure i
  | .instanceOf =>
    match ← s.leading i 2 ops with
    | (i, ref :: _) => pure { i with ref }
    | (i, []) => pure i
  | .newArray =>
    match ← s.leading i 2 ops with
    | (i, ref :: _) => pure { i with ref, type := ref }
    | (i, []) => pure i
  | .filledNewArray =>
    let i ← s.listed i ops
    match ops.drop 1 with
    | ref :: _ => pure { i with ref, type := ref }
    | [] => pure i
  | .fillArrayData =>
    match ← s.leading i 1 ops with
    | (i, name :: _) =>
      let i := { i with payload := Text.stripStart ":" name }
      match s.payload? .arrayData i.payload with
      | some p => pure { i with array := some ⟨p.width, p.values⟩ }
      | none => do note i.line (.payload "array-data" i.payload); pure i
    | (i, []) => pure i
  | .goto =>
    match ops with
    | [] => do note i.line .gotoLabel; pure i
    | name :: _ => pure { i with target := ← s.label i.line name }
  | .ifTest =>
    match ← s.leading i 2 ops with
    | (i, name :: _) => pure { i with target := ← s.label i.line name }
    | (i, []) => pure i
  | .ifZero =>
    match ← s.leading i 1 ops with
    | (i, name :: _) => pure { i with target := ← s.label i.line name }
    | (i, []) => pure i
  | .packedSwitch =>
    match ← s.leading i 1 ops with
    | (i, name :: _) => s.switchTable { i with payload := Text.stripStart ":" name } .packedSwitch
    | (i, []) => pure i
  | .sparseSwitch =>
    match ← s.leading i 1 ops with
    | (i, name :: _) => s.switchTable { i with payload := Text.stripStart ":" name } .sparseSwitch
    | (i, []) => pure i
  | .iget | .iput =>
    match ← s.leading i 2 ops with
    | (i, name :: _) => pure { i with field := ← fieldRef i.line name }
    | (i, []) => pure i
  | .sget | .sput =>
    match ← s.leading i 1 ops with
    | (i, name :: _) => pure { i with field := ← fieldRef i.line name }
    | (i, []) => pure i
  | .invoke =>
    let i ← s.listed i ops
    match ops.drop 1 with
    | [] => pure i
    | name :: _ =>
      match ← methodRef i.line name with
      | some m => pure { i with method := some m, type := m.result }
      | none => pure i

def decodeAll (s : Scope) : List Placed → Noting (List Instruction)
  | [] => pure []
  | p :: rest => do
    let i ← s.decode p
    let is ← s.decodeAll rest
    pure (i :: is)

def catches (s : Scope) : List CatchLine → Noting (List CatchDirective)
  | [] => pure []
  | c :: rest => do
    match s.labels.lookup c.start, s.labels.lookup c.stop, s.labels.lookup c.handler with
    | some start, some stop, some handler =>
      let ds ← s.catches rest
      pure (⟨start, stop, c.type, handler⟩ :: ds)
    | _, _, _ =>
      note c.line .catchLabel
      s.catches rest

end Scope

namespace Draft

def registerCount (d : Draft) : Int :=
  let ins : Int := d.method.ins
  max ins ((d.locals.map fun n => Text.wrap64 (n + ins)).getD d.registers)

def finish (d : Draft) : Noting Method := do
  let registers := d.registerCount
  let scope : Scope :=
    { registers, ins := d.method.ins, labels := d.labels, payloads := d.payloads }
  let code ← scope.decodeAll d.placed.reverse
  let ds ← scope.catches d.catches.reverse
  pure { d.method with
    registers, code
    tries := TryTable.normalize ds
    overlaps := TryTable.partialOverlaps ds }

end Draft

end RegCode.Assembly
