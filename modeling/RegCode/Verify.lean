import RegCode.Method

/-! Well-formedness of method code: instruction layout, register numbers, branch targets, payloads,
placement of results and exceptions, and the exception table. -/
namespace RegCode

inductive VerifyCause where
  | startsLate
  | overlaps
  | badWidth
  | register (r : Int) (registers : Int)
  | wideRegister (r : Int)
  | branchTarget (target : Int)
  | switchPayload
  | switchLengths
  | arrayPayload
  | strayResult
  | strayException
  | methodRef
  | fieldRef
  | fallsOff
  | emptyTry
  | unalignedTry
  | handlerTarget (target : Int)
  deriving DecidableEq, Repr

def VerifyCause.message : VerifyCause → String
  | startsLate => "code does not start at offset 0"
  | overlaps => "instruction overlaps previous one"
  | badWidth => "invalid instruction width"
  | register r n =>
    "register v" ++ Text.intText r ++ " out of range (registers=" ++ Text.intText n ++ ")"
  | wideRegister r =>
    "wide register pair v" ++ Text.intText r ++ "/v" ++ Text.intText (r + 1) ++ " out of range"
  | branchTarget t => "branch target " ++ Text.offsetText t ++ " is not an instruction boundary"
  | switchPayload => "switch without payload"
  | switchLengths => "switch payload keys and targets differ in length"
  | arrayPayload => "fill-array-data without payload"
  | strayResult => "move-result does not follow an invoke"
  | strayException => "move-exception outside of a handler entry"
  | methodRef => "invoke without method reference"
  | fieldRef => "field access without field reference"
  | fallsOff => "execution falls off the end of the code"
  | emptyTry => "empty try range"
  | unalignedTry => "try range does not align with instructions"
  | handlerTarget t => "handler " ++ Text.offsetText t ++ " is not an instruction boundary"

/-- A violation and the offset that it is reported at. -/
structure VerifyFault where
  method : String
  offset : Int
  cause : VerifyCause
  deriving DecidableEq, Repr

def VerifyFault.message (f : VerifyFault) : String :=
  "malformed bytecode in " ++ f.method ++ " at " ++ Text.offsetText f.offset ++ ": " ++ f.cause.message

namespace Verify

abbrev Violation := Int × VerifyCause

def layout : Int → List Instruction → Except Violation Unit
  | _, [] => .ok ()
  | expected, i :: rest =>
    if i.offset ≠ expected then .error (i.offset, .overlaps)
    else if i.width ≤ 0 then .error (i.offset, .badWidth)
    else layout i.next rest

def registers (m : Method) (i : Instruction) : Except Violation Unit :=
  match i.regs.find? (fun r => decide (r < 0 ∨ m.registers ≤ r)) with
  | some r => .error (i.offset, .register r m.registers)
  | none =>
    match i.definedRegister? with
    | some d =>
      if i.isWide ∧ m.registers ≤ d + 1 then .error (i.offset, .wideRegister d) else .ok ()
    | none => .ok ()

def isBoundary (m : Method) (offset : Int) : Bool := m.code.any (·.offset == offset)

def branches (m : Method) (i : Instruction) : Except Violation Unit :=
  match i.targets.find? (fun t => !isBoundary m t) with
  | some t => .error (i.offset, .branchTarget t)
  | none => .ok ()

def isHandlerEntry (m : Method) (offset : Int) : Bool :=
  m.tries.any fun t => t.handlers.any (·.target == offset)

def isCall : Family → Bool
  | .invoke | .filledNewArray => true
  | _ => false

/-- What each family needs besides registers and targets. -/
def operands (m : Method) (prev : Option Instruction) (i : Instruction) : Except Violation Unit :=
  match i.family with
  | .packedSwitch | .sparseSwitch =>
    match i.switch with
    | none => .error (i.offset, .switchPayload)
    | some t =>
      if t.keys.length = t.targets.length then .ok () else .error (i.offset, .switchLengths)
  | .fillArrayData => if i.array.isSome then .ok () else .error (i.offset, .arrayPayload)
  | .moveResult =>
    if prev.any (isCall ·.family) then .ok () else .error (i.offset, .strayResult)
  | .moveException =>
    if isHandlerEntry m i.offset then .ok () else .error (i.offset, .strayException)
  | .invoke => if i.method.isSome then .ok () else .error (i.offset, .methodRef)
  | .iget | .iput | .sget | .sput =>
    if i.field.isSome then .ok () else .error (i.offset, .fieldRef)
  | _ => .ok ()

def instructions (m : Method) : Option Instruction → List Instruction → Except Violation Unit
  | _, [] => .ok ()
  | prev, i :: rest => do
    registers m i
    branches m i
    operands m prev i
    instructions m (some i) rest

def ending (m : Method) : Except Violation Unit :=
  match m.code.getLast? with
  | some last => if last.family.isTerminator then .ok () else .error (last.offset, .fallsOff)
  | none => .ok ()

def tryRange (m : Method) (t : TryRange) : Except Violation Unit :=
  if t.stop ≤ t.start then .error (t.start, .emptyTry)
  else if !isBoundary m t.start || (t.stop != m.codeEnd && !isBoundary m t.stop) then
    .error (t.start, .unalignedTry)
  else
    match t.handlers.find? (fun h => !isBoundary m h.target) with
    | some h => .error (t.start, .handlerTarget h.target)
    | none => .ok ()

def violation (m : Method) : Except Violation Unit :=
  match m.code with
  | [] => .ok ()
  | first :: _ =>
    if first.offset ≠ 0 then .error (first.offset, .startsLate)
    else do
      layout 0 m.code
      instructions m none m.code
      ending m
      m.tries.forM (tryRange m)

end Verify

def Method.verify (m : Method) : Except VerifyFault Unit :=
  match Verify.violation m with
  | .ok () => .ok ()
  | .error (offset, cause) => .error ⟨m.fullName, offset, cause⟩

end RegCode
