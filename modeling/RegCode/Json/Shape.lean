import RegCode.Decimal
import RegCode.Json

/-! What a document may look like, and reading it by the names of its members. A null fits every
shape and stands for nothing. Of members with one name the later ones add to the earlier. -/
namespace RegCode.Json

inductive Shape where
  | text
  | flag
  | whole (low high : Int)
  | real
  | token
  | any
  | list (item : Shape)
  | record (fields : List (String × Shape))
  deriving Repr, Inhabited

def exchangeCase (c : Char) : Char :=
  if c = 'k' then '\u212a'
  else if c = 's' then '\u017f'
  else if c = '\u212a' then 'k'
  else if c = '\u017f' then 's'
  else Decimal.lowerAscii c

def foldName (name : String) : String :=
  if name.toList.all (·.toNat < 128) then String.ofList (name.toList.map Decimal.lowerAscii)
  else String.ofList (name.toList.map exchangeCase)

def sameName (field key : String) : Bool := foldName field == foldName key

def isDouble (text : String) : Bool := (Decimal.read? Decimal.double text).isSome

def signed32 : Shape := .whole (-2147483648) 2147483647

def unsigned32 : Shape := .whole 0 4294967295

namespace Shape

def field? (key : String) : Shape → Option Shape
  | record fields => (fields.find? fun (name, _) => sameName name key).map Prod.snd
  | any => some any
  | _ => none

def holdsInt (n : Int) : Shape → Bool
  | whole low high => low ≤ n && n ≤ high
  | token => -2147483648 ≤ n && n ≤ 2147483647
  | real | any => isDouble (Text.intText n)
  | _ => false

def holdsReal (text : String) : Shape → Bool
  | whole low _ => text == "-0" && low < 0
  | token => text == "-0"
  | real | any => isDouble text
  | _ => false

def isText : Shape → Bool
  | text | token | any => true
  | _ => false

def isFlag : Shape → Bool
  | flag | any => true
  | _ => false

def item? : Shape → Option Shape
  | list s => some s
  | any => some any
  | _ => none

def isRecord : Shape → Bool
  | record _ | any => true
  | _ => false

end Shape

mutual

def Value.fits (s : Shape) : Value → Bool
  | .null => true
  | .bool _ => s.isFlag
  | .int n => s.holdsInt n
  | .real t => s.holdsReal t
  | .str _ => s.isText
  | .arr vs =>
    match s.item? with
    | some s => fitItems s vs
    | none => false
  | .obj ms => s.isRecord && fitMembers s ms

def fitItems (s : Shape) : List Value → Bool
  | [] => true
  | v :: vs => v.fits s && fitItems s vs

def fitMembers (s : Shape) : List (String × Value) → Bool
  | [] => true
  | (k, v) :: ms =>
    (match s.field? k with
      | some f => v.fits f
      | none => true) && fitMembers s ms

end

namespace Value

def along : List String → Value → List Value
  | [], v => [v]
  | name :: path, .obj ms => ms.flatMap fun (k, v) => if sameName name k then v.along path else []
  | _ :: _, _ => []

def text? : Value → Option String
  | .str s => some s
  | _ => none

def whole? : Value → Option Int
  | .int n => some n
  | .real "-0" => some 0
  | _ => none

def textAt? (path : List String) (v : Value) : Option String :=
  ((v.along path).filterMap text?).getLast?

def textAt (path : List String) (v : Value) : String := (v.textAt? path).getD ""

def wholeAt (path : List String) (v : Value) : Int :=
  (((v.along path).filterMap whole?).getLast?).getD 0

def last? (name : String) (v : Value) : Option Value := (v.along [name]).getLast?

end Value

end RegCode.Json
