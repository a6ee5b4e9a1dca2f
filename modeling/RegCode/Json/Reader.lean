import RegCode.Json

/-! Documents from their text. -/
namespace RegCode.Json

def isBlank (c : Char) : Bool := c == ' ' || c == '\t' || c == '\n' || c == '\r'

def skipBlanks (cs : List Char) : List Char := cs.dropWhile isBlank

def hexUnit? (a b c d : Char) : Option Nat := Text.readDigits? 16 [a, b, c, d]

def pairValue? (high low : Nat) : Option Char :=
  if 0xD800 ≤ high ∧ high < 0xDC00 ∧ 0xDC00 ≤ low ∧ low < 0xE000 then
    some (Char.ofNat (0x10000 + (high - 0xD800) * 0x400 + (low - 0xDC00)))
  else none

def unitChar (n : Nat) : Char := if 0xD800 ≤ n ∧ n < 0xE000 then '\ufffd' else Char.ofNat n

def simpleEscape? (c : Char) : Option Char :=
  match c with
  | '"' => some '"' | '\\' => some '\\' | '/' => some '/' | 'b' => some '\x08'
  | 'f' => some '\x0c' | 'n' => some '\n' | 'r' => some '\r' | 't' => some '\t'
  | _ => none

/-- The rest of a string after its opening quote. -/
def stringBody? : List Char → Option (List Char × List Char)
  | [] => none
  | '"' :: cs => some ([], cs)
  | '\\' :: 'u' :: a :: b :: c :: d :: '\\' :: 'u' :: e :: f :: g :: h :: cs => do
    let high ← hexUnit? a b c d
    let low ← hexUnit? e f g h
    match pairValue? high low with
    | some x => do
      let (s, rest) ← stringBody? cs
      return (x :: s, rest)
    | none => do
      let (s, rest) ← stringBody? ('\\' :: 'u' :: e :: f :: g :: h :: cs)
      return (unitChar high :: s, rest)
  | '\\' :: 'u' :: a :: b :: c :: d :: cs => do
    let n ← hexUnit? a b c d
    let (s, rest) ← stringBody? cs
    return (unitChar n :: s, rest)
  | '\\' :: c :: cs => do
    let e ← simpleEscape? c
    let (s, rest) ← stringBody? cs
    return (e :: s, rest)
  | c :: cs => do
    if c.toNat < 0x20 ∨ c = '\\' then none
    let (s, rest) ← stringBody? cs
    return (c :: s, rest)

def string? (cs : List Char) : Option (String × List Char) :=
  (stringBody? cs).map fun (s, rest) => (String.ofList s, rest)

def whole? (cs : List Char) : Option (List Char × List Char) :=
  let ds := cs.takeWhile Text.isDecimalDigit
  match ds with
  | [] => none
  | '0' :: _ :: _ => none
  | _ => some (ds, cs.dropWhile Text.isDecimalDigit)

def digits? (cs : List Char) : Option (List Char × List Char) :=
  let ds := cs.takeWhile Text.isDecimalDigit
  if ds.isEmpty then none else some (ds, cs.dropWhile Text.isDecimalDigit)

def fraction? : List Char → Option (List Char × List Char)
  | '.' :: cs => (digits? cs).map fun (ds, rest) => ('.' :: ds, rest)
  | cs => some ([], cs)

def exponent? : List Char → Option (List Char × List Char)
  | c :: cs =>
    if c = 'e' ∨ c = 'E' then
      match cs with
      | '+' :: rest => (digits? rest).map fun (ds, rest) => (c :: '+' :: ds, rest)
      | '-' :: rest => (digits? rest).map fun (ds, rest) => (c :: '-' :: ds, rest)
      | rest => (digits? rest).map fun (ds, rest) => (c :: ds, rest)
    else some ([], c :: cs)
  | [] => some ([], [])

def number? (cs : List Char) : Option (Value × List Char) := do
  let (negative, body) := match cs with
    | '-' :: rest => (true, rest)
    | rest => (false, rest)
  let (whole, rest) ← whole? body
  let (fraction, rest) ← fraction? rest
  let (exponent, rest) ← exponent? rest
  if fraction.isEmpty && exponent.isEmpty then
    let n : Int := (Text.readDigits? 10 whole).getD 0
    return (if negative && n = 0 then .real "-0" else .int (if negative then -n else n), rest)
  else
    let text := whole ++ fraction ++ exponent
    return (.real (String.ofList (if negative then '-' :: text else text)), rest)

def items? (value : List Char → Option (Value × List Char)) :
    Nat → List Char → Option (List Value × List Char)
  | 0, _ => none
  | fuel + 1, cs => do
    let (v, rest) ← value (skipBlanks cs)
    match skipBlanks rest with
    | ',' :: rest => do
      let (vs, rest) ← items? value fuel rest
      return (v :: vs, rest)
    | ']' :: rest => return ([v], rest)
    | _ => none

/-- Members after an opening brace or a comma. -/
def members? (value : List Char → Option (Value × List Char)) :
    Nat → List Char → Option (List (String × Value) × List Char)
  | 0, _ => none
  | fuel + 1, cs => do
    match skipBlanks cs with
    | '"' :: rest =>
      let (k, rest) ← string? rest
      match skipBlanks rest with
      | ':' :: rest =>
        let (v, rest) ← value (skipBlanks rest)
        match skipBlanks rest with
        | ',' :: rest => do
          let (ms, rest) ← members? value fuel rest
          return ((k, v) :: ms, rest)
        | '\x7d' :: rest => return ([(k, v)], rest)
        | _ => none
      | _ => none
    | _ => none

/-- A value; the bound counts the characters. -/
def value? : Nat → List Char → Option (Value × List Char)
  | 0, _ => none
  | fuel + 1, cs =>
    match cs with
    | 'n' :: 'u' :: 'l' :: 'l' :: rest => some (.null, rest)
    | 't' :: 'r' :: 'u' :: 'e' :: rest => some (.bool true, rest)
    | 'f' :: 'a' :: 'l' :: 's' :: 'e' :: rest => some (.bool false, rest)
    | '"' :: rest => (string? rest).map fun (s, rest) => (.str s, rest)
    | '[' :: rest =>
      match skipBlanks rest with
      | ']' :: rest => some (.arr [], rest)
      | rest => (items? (value? fuel) rest.length rest).map fun (vs, rest) => (.arr vs, rest)
    | '\x7b' :: rest =>
      match skipBlanks rest with
      | '\x7d' :: rest => some (.obj [], rest)
      | rest => (members? (value? fuel) rest.length rest).map fun (ms, rest) => (.obj ms, rest)
    | cs => number? cs

def parse? (text : String) : Option Value := do
  let (v, rest) ← value? (text.length + 1) (skipBlanks text.toList)
  if (skipBlanks rest).isEmpty then some v else none

end RegCode.Json
