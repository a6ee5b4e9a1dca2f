import RegCode.Decimal
import RegCode.Text.Cut
import RegCode.Text.Lowercase
import RegCode.Text.Quoted

/-! Literals of assembly text: whole numbers, bit patterns of floating-point numbers, strings and
register lists. -/
namespace RegCode.Assembly

inductive LiteralFault where
  | empty
  | integer (s : String)
  | single (s : String)
  | double (s : String)
  | string (s : String)
  | registerList (s : String)
  | registerRange (s : String)
  deriving DecidableEq, Repr

def LiteralFault.message : LiteralFault → String
  | empty => "empty literal"
  | integer s => "invalid literal " ++ Text.Quoted.encode s
  | single s => "invalid float literal " ++ Text.Quoted.encode s
  | double s => "invalid double literal " ++ Text.Quoted.encode s
  | string s => "invalid string literal " ++ s
  | registerList s => "expected register list, got " ++ Text.Quoted.encode s
  | registerRange s => "invalid register range " ++ Text.Quoted.encode s

def looksReal (s : String) : Bool :=
  s.toList.any (fun c => c == '.' || c == 'e') || Text.endsWith "f" s ||
  Text.endsWith "infinity" s || Text.endsWith "nan" s

def readReal (s : String) : Except LiteralFault Int :=
  let body := Text.stripEnd "d" (Text.stripEnd "f" s)
  if Text.endsWith "f" s then
    match Decimal.read? Decimal.single body with
    | some bits => .ok bits
    | none => .error (.single s)
  else
    match Decimal.read? Decimal.double body with
    | some bits => .ok (Text.wrap64 bits)
    | none => .error (.double s)

def dropWidthLetter (s : String) : String :=
  match s.toList.reverse with
  | c :: d :: rest =>
    if c = 'l' ∨ c = 't' ∨ c = 's' then String.ofList (d :: rest).reverse else s
  | _ => s

def readWhole? (s : String) : Option Int := do
  let s := dropWidthLetter s
  let magnitude := Text.stripStart "-" s
  let n ← match Text.stripStart? "0x" magnitude with
    | some digits => (Text.readUnsigned 16 digits.toList).ok?
    | none => (Text.readUnsigned 10 magnitude.toList).ok?
  some (Text.wrap64 (if Text.startsWith "-" s then -(Text.wrap64 n) else n))

def readLiteral (text : String) : Except LiteralFault Int :=
  let s := Text.stripStart "#" (Text.trim text)
  if s = "" then .error .empty
  else
    let low := Text.lower s
    let hexadecimal := Text.startsWith "0x" low || Text.startsWith "-0x" low
    if !hexadecimal && looksReal low then readReal low
    else
      match readWhole? low with
      | some v => .ok v
      | none => .error (.integer s)

def readString (s : String) : Except LiteralFault Text.Bytes :=
  match Text.Quoted.decode? s with
  | some bs => .ok bs
  | none => .error (.string s)

def registerSpan (letter : Char) (lo hi : Int) : List String :=
  (List.range (hi - lo + 1).toNat).map fun (i : Nat) =>
    String.ofList [letter] ++ Text.intText (lo + (i : Nat))

/-- Register names between braces: listed, or from the first to the last of a range. -/
def readRegisterList (s : String) : Except LiteralFault (List String) :=
  match Text.stripStart? "\x7b" s >>= Text.stripEnd? "\x7d" with
  | none => .error (.registerList s)
  | some inner =>
    let body := Text.trim inner
    if body = "" then .ok []
    else
      match Text.cut? ".." body with
      | some (a, b) =>
        match (Text.trim a).toList, (Text.trim b).toList with
        | c :: lo, d :: hi =>
          match (Text.readSigned (String.ofList lo)).ok?, (Text.readSigned (String.ofList hi)).ok? with
          | some x, some y =>
            if c = d ∧ c.toNat < 128 ∧ x ≤ y then .ok (registerSpan c x y) else .error (.registerRange s)
          | _, _ => .error (.registerRange s)
        | _, _ => .error (.registerRange s)
      | none => .ok ((Text.pieces ',' body).map Text.trim)

def splitMember? (s : String) : Option (String × String × String) := do
  let (owner, member) ← Text.cut? "->" s
  let (name, mark, rest) ← Text.cutWhere? (fun c => c == ':' || c == '(') member.toList
  if name = [] then none
  else some (owner, String.ofList name, String.ofList (mark :: rest))

end RegCode.Assembly
