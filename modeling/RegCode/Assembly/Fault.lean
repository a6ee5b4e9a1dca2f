import RegCode.Assembly.Literal

/-! What can be wrong with assembly text. -/
namespace RegCode.Assembly

inductive ReadCause where
  | className (name : String)
  | fieldOutsideClass
  | methodOutsideClass
  | directive (head : String)
  | fieldDeclaration (text : String)
  | methodSignature (text : String)
  | methodDescriptor (text : String)
  | registerCount (text : String)
  | localsCount (text : String)
  | instruction (head : String)
  | methodEnd (name : String)
  | catchDirective (head : String)
  | catchRange (head : String)
  | arrayWidth (text : String)
  | switchEntry (text : String)
  | payloadEnd (stop : String)
  | catchLabel
  | register (text : String)
  | label (name : String)
  | operandCount (mnemonic : String) (count : Nat)
  | listOperand (mnemonic : String)
  | gotoLabel
  | payload (kind : String) (name : String)
  | fieldReference (text : String)
  | methodReference (text : String)
  | literal (fault : LiteralFault)
  deriving DecidableEq, Repr

def ReadCause.message : ReadCause → String
  | className s => "invalid class name " ++ Text.Quoted.encode s
  | fieldOutsideClass => ".field outside of class"
  | methodOutsideClass => ".method outside of class"
  | directive s => "unexpected directive " ++ Text.Quoted.encode s
  | fieldDeclaration s => "invalid field declaration " ++ Text.Quoted.encode s
  | methodSignature s => "invalid method signature " ++ Text.Quoted.encode s
  | methodDescriptor s => "invalid method descriptor " ++ Text.Quoted.encode s
  | registerCount s => "invalid register count " ++ Text.Quoted.encode s
  | localsCount s => "invalid locals count " ++ Text.Quoted.encode s
  | instruction s => "unknown instruction " ++ Text.Quoted.encode s
  | methodEnd s => "missing .end method for " ++ s
  | catchDirective s => "invalid " ++ s ++ " directive"
  | catchRange s => "invalid " ++ s ++ " range"
  | arrayWidth s => "invalid array element width " ++ Text.Quoted.encode s
  | switchEntry s => "invalid sparse-switch entry " ++ Text.Quoted.encode s
  | payloadEnd s => "missing " ++ s
  | catchLabel => "undefined label in catch directive"
  | register s => "invalid register " ++ Text.Quoted.encode s
  | label s => "undefined label " ++ Text.Quoted.encode s
  | operandCount m n => m ++ " expects " ++ Text.natText n ++ " operands"
  | listOperand m => m ++ " expects a register list"
  | gotoLabel => "goto expects a label"
  | payload kind s => "undefined " ++ kind ++ " payload " ++ Text.Quoted.encode s
  | fieldReference s => "invalid field reference " ++ Text.Quoted.encode s
  | methodReference s => "invalid method reference " ++ Text.Quoted.encode s
  | literal f => f.message

/-- A cause with the line that it is reported at. -/
structure ReadFault where
  line : Nat
  cause : ReadCause
  deriving DecidableEq, Repr

def ReadFault.message (file : String) (f : ReadFault) : String :=
  file ++ ":" ++ Text.natText f.line ++ ": " ++ f.cause.message

abbrev Noting := StateM (Array ReadFault)

def note (line : Nat) (cause : ReadCause) : Noting Unit := modify (·.push ⟨line, cause⟩)

def noteLiteral (line : Nat) (text : String) : Noting Int :=
  match readLiteral text with
  | .ok v => pure v
  | .error f => do note line (.literal f); pure 0

end RegCode.Assembly
