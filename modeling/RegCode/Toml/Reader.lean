import RegCode.Toml.Scalar

/-! Whether dates and times are possible. -/
namespace RegCode.Toml

def momentNumber (cs : List Char) : Except Fault Nat :=
  cs.foldlM (fun acc c =>
    if Text.isDecimalDigit c then .ok (acc * 10 + (c.toNat - 48)) else .error .momentDigit) 0

def isLeapYear (year : Nat) : Bool := year % 4 == 0 && (year % 100 != 0 || year % 400 == 0)

def daysIn (year month : Nat) : Nat :=
  if month = 2 then if isLeapYear year then 29 else 28
  else if month = 4 ∨ month = 6 ∨ month = 9 ∨ month = 11 then 30
  else 31

def checkDate : List Char → Except Fault Unit
  | [a, b, c, d, '-', e, f, '-', g, h] => do
    let year ← momentNumber [a, b, c, d]
    let month ← momentNumber [e, f]
    let day ← momentNumber [g, h]
    if 1 ≤ month ∧ month ≤ 12 ∧ 1 ≤ day ∧ day ≤ daysIn year month then return ()
    else throw .impossibleDate
  | _ => .error .dateFormat

def afterFraction : List Char → Except Fault (List Char)
  | '.' :: [] => .error .fractionEmpty
  | '.' :: c :: cs =>
    if Text.isDecimalDigit c then .ok (cs.dropWhile Text.isDecimalDigit) else .error .fractionStart
  | cs => .ok cs

def checkTime : List Char → Except Fault (List Char)
  | a :: b :: s :: c :: d :: t :: e :: f :: rest => do
    if 23 < (← momentNumber [a, b]) then throw .hourRange
    if s ≠ ':' then throw .hourColon
    if 59 < (← momentNumber [c, d]) then throw .minuteRange
    if t ≠ ':' then throw .minuteColon
    if 60 < (← momentNumber [e, f]) then throw .secondRange
    afterFraction rest
  | _ => .error .timeFormat

def checkDateTime (cs : List Char) : Except Fault (List Char) := do
  match cs.drop 10 with
  | [] => throw .dateTimeFormat
  | separator :: time =>
    checkDate (cs.take 10)
    if separator ≠ 'T' ∧ separator ≠ ' ' ∧ separator ≠ 't' then throw .dateTimeSeparator
    checkTime time

/-- Checks an offset, which ends a date and time. -/
def checkZone : List Char → Except Fault Unit
  | c :: cs => do
    if c = 'Z' ∨ c = 'z' then
      if cs.isEmpty then return () else throw .afterZone
    else
      match cs with
      | [a, b, s, d, e] =>
        if c ≠ '-' ∧ c ≠ '+' then throw .zoneSign
        if s ≠ ':' then throw .zoneColon
        if 23 < (← momentNumber [a, b]) then throw .zoneHours
        if 59 < (← momentNumber [d, e]) then throw .zoneMinutes
        return ()
      | _ => throw .zoneFormat
  | [] => .error .zoneFormat

def MomentKind.check (k : MomentKind) (cs : List Char) : Except Fault Unit := do
  match k with
  | .localDate => checkDate cs
  | .localTime => if (← checkTime cs).isEmpty then return () else throw .afterTime
  | .localDateTime => if (← checkDateTime cs).isEmpty then return () else throw .afterDateTime
  | .offsetDateTime => checkZone (← checkDateTime cs)

/-! Documents as lists of statements, read byte by byte. -/

def skipGap : Nat → List Char → Except Fault (List Char)
  | 0, cs => .ok cs
  | fuel + 1, cs => do
    let cs ← match skipBlanks cs with
      | '#' :: cs => skipComment cs
      | cs => pure cs
    match cs with
    | '\n' :: _ => skipGap fuel (← newline cs)
    | '\r' :: _ => skipGap fuel (← newline cs)
    | _ => return cs

def gap (cs : List Char) : Except Fault (List Char) := skipGap (cs.length + 1) cs

/-- Items of a list up to its closing bracket. -/
def arrayItems (value : List Char → Except Fault (Value × List Char)) :
    Nat → Bool → List Char → Except Fault (List Value × List Char)
  | 0, _, _ => .error .arrayOpen
  | fuel + 1, first, cs => do
    let cs ← gap cs
    match cs with
    | [] => throw .arrayOpen
    | ']' :: rest => return ([], rest)
    | c :: rest =>
      if c = ',' ∧ first then throw .commaFirst
      if c ≠ ',' ∧ ¬ first then throw .noComma
      let cs ← if c = ',' then gap rest else pure cs
      match cs with
      | ']' :: rest => return ([], rest)
      | _ =>
        let (v, rest) ← value cs
        match ← gap rest with
        | [] => throw (.endsBefore ']')
        | rest =>
          let (vs, rest) ← arrayItems value fuel false rest
          return (v :: vs, rest)

def pairWith (value : List Char → Except Fault (Value × List Char)) (cs : List Char) :
    Except Fault ((List String × Value) × List Char) := do
  let (k, rest) ← key cs
  let rest := skipBlanks rest
  if rest.isEmpty then throw .noEquals
  let rest ← expect '=' rest
  let (v, rest) ← value (skipBlanks rest)
  return ((k, v), rest)

def inlinePairs (value : List Char → Except Fault (Value × List Char)) :
    Nat → Bool → List Char → Except Fault (List (List String × Value) × List Char)
  | 0, _, _ => .error .inlineTableOpen
  | fuel + 1, first, cs => do
    if cs.isEmpty then throw (.endsBefore '\x7d')
    match skipBlanks cs with
    | [] => throw .inlineTableOpen
    | c :: rest =>
      if c = '\x7d' then return ([], rest)
      let cs ← if first then pure (c :: rest) else (expect ',' (c :: rest)).map skipBlanks
      let (p, rest) ← pairWith value cs
      let (ps, rest) ← inlinePairs value fuel false rest
      return (p :: ps, rest)

/-- A value; the bound counts the characters. -/
def value : Nat → List Char → Except Fault (Value × List Char)
  | 0, _ => .error .noValue
  | _, [] => .error .noValue
  | fuel + 1, c :: cs => do
    match c with
    | '"' =>
      match cs with
      | '"' :: '"' :: rest => (multiBasicString rest).map fun (s, r) => (.string s, r)
      | _ => (basicString cs).map fun (s, r) => (.string s, r)
    | '\'' =>
      match cs with
      | '\'' :: '\'' :: rest => (multiLiteralString rest).map fun (s, r) => (.string s, r)
      | _ => (literalString cs).map fun (s, r) => (.string s, r)
    | 't' =>
      match cs with
      | 'r' :: 'u' :: 'e' :: rest => return (.boolean true, rest)
      | _ => throw (.expectedWord "true")
    | 'f' =>
      match cs with
      | 'a' :: 'l' :: 's' :: 'e' :: rest => return (.boolean false, rest)
      | _ => throw (.expectedWord "false")
    | '[' =>
      if cs.isEmpty then throw (.endsBefore ']')
      let (vs, rest) ← arrayItems (value fuel) (cs.length + 1) true cs
      return (.array vs, rest)
    | '\x7b' =>
      let (ps, rest) ← inlinePairs (value fuel) (cs.length + 1) true cs
      return (.table ps, rest)
    | _ => quantity (c :: cs)

def pair (cs : List Char) : Except Fault (Statement × List Char) := do
  let ((k, v), rest) ← pairWith (value (cs.length + 1)) cs
  return (.pair k v, rest)

def tableHead : List Char → Except Fault (Statement × List Char)
  | '[' :: cs => do
    let (k, rest) ← key (skipBlanks cs)
    let rest ← expect ']' (skipBlanks rest)
    return (.listTable k, ← expect ']' rest)
  | cs => do
    let (k, rest) ← key (skipBlanks cs)
    return (.table k, ← expect ']' (skipBlanks rest))

def line (cs : List Char) : Except Fault (Option Statement × List Char) := do
  match skipBlanks cs with
  | [] => return (none, [])
  | '#' :: cs => return (none, ← skipComment cs)
  | '\n' :: cs => return (none, '\n' :: cs)
  | '\r' :: cs => return (none, '\r' :: cs)
  | c :: cs =>
    let (s, rest) ← if c = '[' then tableHead cs else pair (c :: cs)
    match skipBlanks rest with
    | '#' :: rest => return (some s, ← skipComment rest)
    | rest => return (some s, rest)

def statementsAfter : Nat → List Char → List Statement × Option Fault
  | 0, _ => ([], none)
  | fuel + 1, cs =>
    match line cs with
    | .error f => ([], some f)
    | .ok (s, rest) =>
      let (ss, fault) :=
        if rest.isEmpty then ([], none)
        else
          match newline rest with
          | .error f => ([], some f)
          | .ok rest => if rest.isEmpty then ([], none) else statementsAfter fuel rest
      (s.toList ++ ss, fault)

def statements (text : String) : List Statement × Option Fault :=
  let cs := Text.byteChars text
  statementsAfter (cs.length + 1) cs

end RegCode.Toml
